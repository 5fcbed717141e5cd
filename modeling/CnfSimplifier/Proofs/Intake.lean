import CnfSimplifier.Proofs.Derivation
import CnfSimplifier.Proofs.Runs

/-!
# Taking clauses in

A clause from outside is stored without being implied by the formula. What is left
of it under the root assignment becomes a clause or a root literal, so that the
models of the formula afterwards are those of the formula before that satisfy the
clause. If nothing is left the formula is refuted.

Variables come in on demand. They are open and unprotected, and a numbering in
effect numbers them on.
-/
namespace CnfSimplifier

/-- Where a formula holds, its root literals do. -/
theorem Picture.Holds.root {picture : Picture} {values : Assignment}
    (holds : picture.Holds values) : ∀ literal ∈ picture.root, literal.Holds values := by
  intro literal atRoot
  obtain ⟨other, single, isTrue⟩ := holds _ (Picture.mem_formula_of_root atRoot)
  rwa [List.mem_singleton.1 single] at isTrue

/-- A formula holds if its clauses and its root literals do. -/
theorem Picture.holds_iff (picture : Picture) {values : Assignment} : picture.Holds values ↔
    (∀ clause ∈ picture.clauses, ClauseHolds values clause) ∧
      ∀ literal ∈ picture.root, literal.Holds values := by
  constructor
  · exact fun holds => ⟨fun clause member => holds clause (.inl member), holds.root⟩
  · rintro ⟨stored, units⟩ clause (member | ⟨literal, atRoot, rfl⟩)
    · exact stored clause member
    · exact ⟨literal, List.mem_cons_self, units literal atRoot⟩

/-! ## Clauses from outside -/

namespace Engine

variable {engine after : Engine} {literals : List Literal}

/-- The root literals and clauses after a clause was taken in: it held already, or
one literal was left of it, or several. -/
inductive Receives (engine : Engine) (literals : List Literal) :
    List Literal → Multiset (List Literal) → Prop
  | implied (holds : ∀ values, engine.picture.Holds values → ClauseHolds values literals) :
    Receives engine literals engine.picture.root engine.picture.clauses
  | unit (literal : Literal) (reduced : Reduced engine literals [literal]) :
    Receives engine literals (engine.picture.root ++ [literal]) engine.picture.clauses
  | stored (remaining : List Literal) (reduced : Reduced engine literals remaining)
    (two : 2 ≤ remaining.length) (plain : hasComplements (sortedLiterals literals) = false) :
    Receives engine literals engine.picture.root (remaining ::ₘ engine.picture.clauses)

/-- The engine after a clause from outside was stored. -/
structure Stores (engine : Engine) (literals : List Literal) (after : Engine) : Prop where
  inStep : after.InStep
  receives : Receives engine literals after.picture.root after.picture.clauses
  flags : engine.trail.SameFlags after.trail
  orderly : engine.trail.Orderly → after.trail.Orderly
  clean : engine.index.dirty = #[] → after.index.dirty = #[]
  records : after.records = engine.records
  proof : engine.proof = none → after.proof = none
  irredundant : engine.arena.Irredundant → after.arena.Irredundant
  unsat : after.unsat = engine.unsat
  poisoned : after.poisoned = engine.poisoned
  settings : after.settings = engine.settings
  applied : after.applied = engine.applied

/-- A clause stands for what is left of it. -/
theorem Reduced.supports {remaining : List Literal}
    (reduced : Reduced engine literals remaining) :
    Supports engine.picture.root literals remaining := by
  refine ⟨reduced.subset, engine.picture.root, List.prefix_refl _, fun literal member => ?_,
    reduced.isOpen⟩
  by_cases inside : literal ∈ remaining
  · exact .inl inside
  · exact .inr (reduced.falsified literal member inside)

/-- What is left of a clause is put into arena and index. Whether the proof was told
of it does not matter. -/
theorem insertRemaining_ends {remaining : List Literal} (inStep : engine.InStep)
    (reduced : Reduced engine literals remaining) (two : 2 ≤ remaining.length)
    (plain : hasComplements (sortedLiterals literals) = false) {proof : Option (Array ProofStep)}
    (told : engine.proof = none → proof = none) {failed : Error → Engine → Prop} :
    (do
      let handle ← insertClause remaining false
      let stored ← clause handle
      updateIndex fun index => index.add handle stored.literals
      touch
      return some handle).Ends { engine with proof := proof }
      (fun _ after => Stores engine literals after) failed := by
  have inStepNow : InStep { engine with proof := proof } := inStep.of_same rfl rfl rfl rfl
  refine insertClause_seq inStepNow reduced.sorted fun after inserts => ?_
  refine .step rfl (.pure ?_)
  constructor
  case inStep =>
    exact inserts.inStep.of_same rfl rfl rfl rfl
  case receives =>
    change Receives engine literals after.trail.facts after.arena.contents
    rw [inserts.trail, inserts.contents]
    exact .stored remaining reduced two plain
  case flags =>
    change engine.trail.SameFlags after.trail
    rw [inserts.trail]
    exact .refl _
  case orderly =>
    change engine.trail.Orderly → after.trail.Orderly
    rw [inserts.trail]
    exact id
  case clean => exact fun clean => inserts.dirty.trans clean
  case irredundant => exact fun isPure => inserts.irredundant isPure rfl
  case proof => exact fun untold => inserts.proof.trans (told untold)
  case records => exact inserts.records
  case unsat => exact inserts.unsat
  case poisoned => exact inserts.poisoned
  case settings => exact inserts.settings
  case applied => exact inserts.applied

/-- The last literal that is left of a clause becomes a root literal. -/
theorem assignRemaining_ends {literal : Literal} (inStep : engine.InStep)
    (reduced : Reduced engine literals [literal])
    (kept : ¬ engine.trail.Removed literal.var) :
    (assignUnit literal).Ends engine (fun _ after => Stores engine literals after)
      fun _ _ => False := by
  have value := reduced.value literal List.mem_cons_self
  refine (assignUnit_of_open inStep.trail value kept).imp ?_ fun _ _ impossible => impossible
  rintro _ _ ⟨trail, tally, changes, pushed, rfl⟩
  constructor
  case inStep => exact inStep.push value pushed rfl rfl rfl
  case receives =>
    change Receives engine literals trail.facts engine.picture.clauses
    rw [Trail.facts_push value pushed]
    exact .unit literal reduced
  case flags => exact Trail.sameFlags_push pushed
  case orderly => exact fun orderly => orderly.push value pushed
  case clean => exact id
  case proof =>
    intro untold
    change engine.proof.map _ = none
    rw [untold, Option.map_none]
  case irredundant => exact id
  all_goals rfl

/-- Storing a clause whose variables are all there. -/
theorem importClause_ends (inStep : engine.InStep)
    (present : ∀ literal ∈ literals, 0 < literal.var ∧ literal.var ≤ engine.numVars ∧
      ¬ engine.trail.Removed literal.var) :
    (importClause literals false).Ends engine (fun _ after => Stores engine literals after)
      (fun cause after => after = engine ∧ cause.isUnsat = true ∧
        ∀ values, engine.picture.Holds values → ¬ ClauseHolds values literals) := by
  have overVars : OverVars literals := fun literal member => (present literal member).1
  have unchanged : (∀ values, engine.picture.Holds values → ClauseHolds values literals) →
      Stores engine literals engine := fun holds =>
    ⟨inStep, .implied holds, .refl _, id, id, rfl, id, id, rfl, rfl, rfl, rfl⟩
  refine storeClause_ends inStep.trail ?_ ?_ ?_ ?_
  · rintro ⟨literal, member, wrong⟩
    obtain ⟨positive, inside, _⟩ := present literal member
    omega
  · intro _ complementary
    refine unchanged fun values _ => clauseHolds_sortedLiterals.1 ?_
    exact clauseHolds_of_hasComplements
      (fun literal member => overVars literal (mem_sortedLiterals.1 member)) complementary
  · rintro ⟨literal, member, atRoot⟩
    exact unchanged fun values holds => ⟨literal, member, holds.root literal atRoot⟩
  intro _ plain remaining reduced
  rcases remaining with _ | ⟨first, _ | ⟨second, others⟩⟩
  · refine .fail ⟨rfl, rfl, fun values holds satisfied => ?_⟩
    obtain ⟨_, impossible, _⟩ := (reduced.clauseHolds_iff overVars holds.root).2 satisfied
    cases impossible
  · obtain ⟨_, _, kept⟩ := present first (reduced.subset List.mem_cons_self)
    refine .seq ((assignRemaining_ends inStep reduced kept).imp ?_
      fun _ _ impossible => impossible.elim)
    exact fun _ after stores => .pure stores
  · have two : 2 ≤ (first :: second :: others).length := by simp
    simp only [storeRemaining]
    split
    · exact .step rfl (insertRemaining_ends inStep reduced two plain fun untold => by simp [untold])
    · exact insertRemaining_ends inStep reduced two plain id

/-! ## The formula after a clause was taken in -/

variable {picture : Picture}

/-- The models afterwards are those before that satisfy the clause. -/
theorem Receives.holds_iff (receives : Receives engine literals picture.root picture.clauses)
    (overVars : OverVars literals) {values : Assignment} :
    picture.Holds values ↔ engine.picture.Holds values ∧ ClauseHolds values literals := by
  rw [picture.holds_iff]
  generalize picture.root = root at receives
  generalize picture.clauses = clauses at receives
  cases receives with
  | implied holds =>
    rw [← engine.picture.holds_iff]
    exact ⟨fun before => ⟨before, holds values before⟩, And.left⟩
  | unit literal reduced =>
    rw [List.forall_mem_append, List.forall_mem_singleton, ← and_assoc, ← engine.picture.holds_iff]
    refine and_congr_right fun before => ?_
    rw [← reduced.clauseHolds_iff overVars before.root]
    simp [ClauseHolds]
  | stored remaining reduced =>
    rw [Multiset.forall_mem_cons, and_assoc, and_comm, ← engine.picture.holds_iff]
    exact and_congr_right fun before => reduced.clauseHolds_iff overVars before.root

/-- A clause of the formula afterwards was one before, or it is part of the clause
that was taken in. -/
theorem Receives.mem_formula (receives : Receives engine literals picture.root picture.clauses)
    {clause : List Literal} (member : clause ∈ picture.formula) :
    clause ∈ engine.picture.formula ∨ clause ⊆ literals := by
  change clause ∈ picture.clauses ∨ ∃ literal ∈ picture.root, clause = [literal] at member
  generalize picture.root = root at receives member
  generalize picture.clauses = clauses at receives member
  cases receives with
  | implied holds => exact .inl member
  | unit literal reduced =>
    rcases member with stored | ⟨other, atRoot, rfl⟩
    · exact .inl (.inl stored)
    rcases List.mem_append.1 atRoot with earlier | new
    · exact .inl (Picture.mem_formula_of_root earlier)
    · rw [List.mem_singleton.1 new]
      exact .inr reduced.subset
  | stored remaining reduced =>
    rcases member with stored | atRoot
    · rcases Multiset.mem_cons.1 stored with rfl | earlier
      · exact .inr reduced.subset
      · exact .inl (.inl earlier)
    · exact .inl (.inr atRoot)

/-- Applied root literals stay applied. -/
theorem Receives.settles (receives : Receives engine literals picture.root picture.clauses)
    {applied : Nat} (settles : engine.picture.Settles applied) : picture.Settles applied := by
  obtain ⟨inTrail, unmentioned⟩ := settles
  have mentions : ∀ clause ∈ picture.clauses, clause ∈ engine.picture.clauses ∨
      ∀ literal ∈ clause, ∀ other ∈ engine.picture.root, other.var ≠ literal.var := by
    generalize picture.root = root at receives
    generalize picture.clauses = clauses at receives
    cases receives with
    | implied holds => exact fun _ member => .inl member
    | unit literal reduced => exact fun _ member => .inl member
    | stored remaining reduced =>
      intro clause member
      rcases Multiset.mem_cons.1 member with rfl | earlier
      · exact .inr reduced.isOpen
      · exact .inl earlier
  have root : ∃ more, picture.root = engine.picture.root ++ more := by
    generalize picture.root = root at receives
    generalize picture.clauses = clauses at receives
    cases receives with
    | implied holds => exact ⟨[], (List.append_nil _).symm⟩
    | unit literal reduced => exact ⟨[literal], rfl⟩
    | stored remaining reduced => exact ⟨[], (List.append_nil _).symm⟩
  obtain ⟨more, appended⟩ := root
  refine ⟨?_, fun literal member => ?_⟩
  · rw [appended, List.length_append]
    exact Nat.le_add_right_of_le inTrail
  · rw [appended, List.take_append_of_le_length inTrail] at member
    rintro ⟨clause, stored, other, inside, same⟩
    rcases mentions clause stored with earlier | isOpen
    · exact unmentioned literal member ⟨clause, earlier, other, inside, same⟩
    · exact isOpen other inside literal (List.mem_of_mem_take member) same.symm

/-- A held copy of the clause backs what was left of it. -/
theorem Receives.backed (receives : Receives engine literals picture.root picture.clauses)
    (pending : picture.pending = engine.picture.pending) {held : List (List Literal)}
    (backed : Backed engine.picture.root held engine.picture.obligations) :
    Backed picture.root (literals :: held) picture.obligations := by
  unfold Picture.obligations at backed ⊢
  rw [pending]
  generalize picture.root = root at receives ⊢
  generalize picture.clauses = clauses at receives ⊢
  cases receives with
  | implied holds => exact backed.hold literals
  | unit literal reduced =>
    have both := (backed.cons reduced.supports).append [literal]
    rw [List.map_append, ← Multiset.coe_add]
    simp only [List.map_cons, List.map_nil, Multiset.coe_singleton]
    rwa [Multiset.add_comm (Multiset.ofList _) {[literal]}, add_assoc, add_assoc, Multiset.singleton_add, ← add_assoc]
  | stored remaining reduced =>
    rw [Multiset.add_cons, Multiset.cons_add]
    exact backed.cons reduced.supports

variable [Realm]

/-- The formula keeps its form when a clause over its variables is taken in. -/
theorem Receives.wellFormed (receives : Receives engine literals picture.root picture.clauses)
    (wellFormed : engine.picture.WellFormed)
    (present : ∀ literal ∈ literals, engine.picture.Present literal.var)
    (sameVars : picture.numVars = engine.picture.numVars)
    (sameRemoved : picture.removed = engine.picture.removed) : picture.WellFormed := by
  have parts : (∀ clause ∈ picture.clauses, engine.picture.Admits clause) ∧
      (∀ literal ∈ picture.root, engine.picture.Known literal.var) ∧
      (picture.root.map Literal.var).Nodup := by
    generalize picture.root = root at receives
    generalize picture.clauses = clauses at receives
    obtain ⟨admits, atRoot, distinct⟩ := wellFormed
    cases receives with
    | implied holds => exact ⟨admits, atRoot, distinct⟩
    | unit literal reduced =>
      refine ⟨admits, ?_, ?_⟩
      · rw [List.forall_mem_append, List.forall_mem_singleton]
        exact ⟨atRoot, (present literal (reduced.subset List.mem_cons_self)).known⟩
      · rw [List.map_append, List.map_singleton]
        refine List.nodup_append.2 ⟨distinct, List.nodup_singleton _, ?_⟩
        intro name earlier other new same
        obtain ⟨root, isRoot, rfl⟩ := List.mem_map.1 earlier
        rw [List.mem_singleton.1 new] at same
        exact reduced.isOpen literal List.mem_cons_self root isRoot same
    | stored remaining reduced two plain =>
      refine ⟨fun clause member => ?_, atRoot, distinct⟩
      rcases Multiset.mem_cons.1 member with rfl | earlier
      · exact reduced.admits present plain two
      · exact admits clause earlier
  obtain ⟨admits, atRoot, distinct⟩ := parts
  refine ⟨fun clause member => (admits clause member).of_same_vars sameVars sameRemoved,
    fun literal member => ?_, distinct⟩
  unfold Picture.Known
  rw [sameVars, sameRemoved]
  exact atRoot literal member

/-- Nothing is wrong when a clause was stored. -/
theorem Stores.healthy (stores : Stores engine literals after) (healthy : engine.Healthy)
    (present : ∀ literal ∈ literals, engine.picture.Present literal.var) : after.Healthy where
  toInStep := stores.inStep
  wellFormed := stores.receives.wellFormed healthy.wellFormed present stores.flags.numVars
    stores.flags.removed
  strict := healthy.strict
  intact := stores.poisoned.trans healthy.intact
  accounts := stores.flags.accounts healthy.accounts
  clean := stores.clean healthy.clean

end Engine

end CnfSimplifier
