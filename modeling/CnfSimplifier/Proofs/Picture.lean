import CnfSimplifier.Reconstruction
import CnfSimplifier.Proof
import CnfSimplifier.Proofs.UnitPropagation
import Mathlib.Data.Multiset.AddSub
import Mathlib.Logic.Function.Basic
import Mathlib.Logic.Relation

/-!
# Pictures of a formula and the steps between them

A picture is what matters of a state of the simplifier: the clauses, the root
literals, which variables are protected and which are gone, the records and the
proof. Whatever a technique does amounts to a sequence of a few kinds of steps
between pictures. Each claim about whole histories is a claim about one step of
each kind, carried along the sequence.

A clause that was taken out of the formula is *pending* until its removal is
reported to the proof. Redundant clauses are among the clauses of a picture; what
the records promise is promised only of pictures without them.
-/
namespace CnfSimplifier

variable {values : Assignment}

/-! ## Records as changes of an assignment -/

instance (values : Assignment) (literals : List Literal) :
    Decidable (ClauseHolds values literals) :=
  inferInstanceAs (Decidable (∃ literal ∈ literals, literal.Holds values))

/-- Make the chosen literal true unless the clause holds already. -/
def Record.repair (record : Record) (values : Assignment) : Assignment :=
  if ClauseHolds values record.literals then values
  else Function.update values record.chosen.var record.chosen.isPositive

/-- Go through records from the last to the first. -/
def unwind (records : List Record) (values : Assignment) : Assignment :=
  records.foldr Record.repair values

@[simp] theorem unwind_nil (values : Assignment) : unwind [] values = values := rfl

theorem unwind_append (first second : List Record) (values : Assignment) :
    unwind (first ++ second) values = unwind first (unwind second values) :=
  List.foldr_append

/-- A repaired record holds. -/
theorem Record.clauseHolds_repair (record : Record) (values : Assignment) :
    ClauseHolds (record.repair values) record.literals := by
  unfold repair
  split
  · assumption
  · refine ⟨record.chosen, List.mem_cons_self, ?_⟩
    simp [Literal.Holds]

/-- A repair changes at most the chosen variable. -/
theorem Record.repair_of_ne {record : Record} {name : Nat} (different : record.chosen.var ≠ name) :
    record.repair values name = values name := by
  unfold repair
  split
  · rfl
  · exact Function.update_of_ne different.symm _ _

/-- Variables that no record chooses keep their values. -/
theorem unwind_of_not_chosen {records : List Record} {name : Nat}
    (spared : ∀ record ∈ records, record.chosen.var ≠ name) :
    unwind records values name = values name := by
  induction records with
  | nil => rfl
  | cons record rest ih =>
    have later := ih fun other member => spared other (List.mem_cons_of_mem record member)
    change record.repair (unwind rest values) name = values name
    rw [Record.repair_of_ne (spared record List.mem_cons_self), later]

/-- A clause over variables that no record chooses keeps its meaning. -/
theorem clauseHolds_unwind {records : List Record} {literals : List Literal}
    (spared : ∀ literal ∈ literals, ∀ record ∈ records, record.chosen.var ≠ literal.var) :
    ClauseHolds (unwind records values) literals ↔ ClauseHolds values literals := by
  have same : ∀ literal ∈ literals,
      (literal.Holds (unwind records values) ↔ literal.Holds values) := by
    intro literal member
    unfold Literal.Holds
    rw [unwind_of_not_chosen (spared literal member)]
  constructor
  · rintro ⟨literal, member, holds⟩
    exact ⟨literal, member, (same literal member).1 holds⟩
  · rintro ⟨literal, member, holds⟩
    exact ⟨literal, member, (same literal member).2 holds⟩

/-- Push records, the first of the list first. -/
def Reconstruction.pushAll (stack : Reconstruction) (records : List Record) : Reconstruction :=
  records.foldl (fun stack record => stack.push record.chosen record.rest) stack

theorem Reconstruction.pushAll_append (stack : Reconstruction) (first second : List Record) :
    stack.pushAll (first ++ second) = (stack.pushAll first).pushAll second :=
  List.foldl_append

/-! ## Pictures -/

/-- What matters of a state of the simplifier. -/
structure Picture where
  numVars : Nat
  /-- The protected variables. -/
  frozen : Nat → Prop
  /-- The eliminated and substituted variables. -/
  removed : Nat → Prop
  /-- The root literals, oldest first. -/
  root : List Literal
  /-- The live clauses. -/
  clauses : Multiset (List Literal)
  /-- The removed clauses of which the proof was not told. -/
  pending : Multiset (List Literal) := 0
  /-- No live clause is redundant. -/
  irredundant : Prop
  records : Reconstruction
  log : Option (List ProofStep)

namespace Picture

/-- The clauses, and a unit for every root literal. -/
def formula (picture : Picture) : Set (List Literal) :=
  {literals | literals ∈ picture.clauses ∨ ∃ literal ∈ picture.root, literals = [literal]}

/-- An assignment satisfies the clauses and the root literals. -/
def Holds (picture : Picture) (values : Assignment) : Prop :=
  ∀ literals ∈ picture.formula, ClauseHolds values literals

/-- Some clause or root literal is part of the given literals. -/
def Contains (picture : Picture) (literals : List Literal) : Prop :=
  ∃ part ∈ picture.formula, part ⊆ literals

/-- Some clause has a literal of a variable. -/
def Mentions (picture : Picture) (name : Nat) : Prop :=
  ∃ literals ∈ picture.clauses, ∃ literal ∈ literals, literal.var = name

/-- The first root literals were applied: no clause has a literal of their
variables. -/
structure Settles (picture : Picture) (applied : Nat) : Prop where
  inTrail : applied ≤ picture.root.length
  unmentioned : ∀ literal ∈ picture.root.take applied, ¬ picture.Mentions literal.var

/-- Add steps to the proof, if one is kept. -/
def logged (picture : Picture) (steps : List ProofStep) : Picture :=
  { picture with log := picture.log.map (· ++ steps) }

variable {picture : Picture}

theorem mem_formula_of_clause {literals : List Literal} (clause : literals ∈ picture.clauses) :
    literals ∈ picture.formula := .inl clause

theorem mem_formula_of_root {literal : Literal} (atRoot : literal ∈ picture.root) :
    [literal] ∈ picture.formula := .inr ⟨literal, atRoot, rfl⟩

/-- What a formula contains holds wherever the formula does. -/
theorem Contains.clauseHolds {literals : List Literal} {values : Assignment}
    (contains : picture.Contains literals) (holds : picture.Holds values) :
    ClauseHolds values literals := by
  obtain ⟨part, clause, small⟩ := contains
  exact (holds part clause).of_subset fun literal member => small member

end Picture

/-! ## Well-formed pictures -/

/-- The variables that a formula keeps to. Which ones they are does not matter to
any step; that no step leaves them is what numbering the variables rests on. -/
class Realm where
  Has : Nat → Prop
  /-- Clauses may mention variables that are gone. The engine never lets that
  happen by itself, but its operations allow it. -/
  Lenient : Prop
  /-- Root literals may belong to variables that are gone. -/
  LenientRoot : Prop
  lenientRoot : Lenient → LenientRoot

variable [Realm]

namespace Picture

variable {picture : Picture} {literals : List Literal}

/-- A variable that belongs to the formula still. -/
def Present (picture : Picture) (name : Nat) : Prop :=
  0 < name ∧ name ≤ picture.numVars ∧ (¬ picture.removed name ∨ Realm.Lenient) ∧ Realm.Has name

/-- A variable that a root literal may belong to. -/
def Known (picture : Picture) (name : Nat) : Prop :=
  0 < name ∧ name ≤ picture.numVars ∧ (¬ picture.removed name ∨ Realm.LenientRoot) ∧ Realm.Has name

theorem Present.known {name : Nat} (present : picture.Present name) : picture.Known name := by
  obtain ⟨positive, inRange, kept, inRealm⟩ := present
  exact ⟨positive, inRange, kept.imp_right Realm.lenientRoot, inRealm⟩

/-- The form that every live clause has. -/
structure Admits (picture : Picture) (literals : List Literal) : Prop where
  sorted : literals.Pairwise (· < ·)
  two : 2 ≤ literals.length
  present : ∀ literal ∈ literals, picture.Present literal.var
  proper : ∀ literal ∈ literals, literal.complement ∉ literals

/-- A record over variables of the formula, whether or not they are still there. -/
def RecordFits (numVars : Nat) (record : Record) : Prop :=
  ∀ literal ∈ record.literals, 0 < literal.var ∧ literal.var ≤ numVars ∧ Realm.Has literal.var

/-- Clauses and root literals have the form they should have. -/
structure WellFormed (picture : Picture) : Prop where
  admits : ∀ literals ∈ picture.clauses, picture.Admits literals
  known : ∀ literal ∈ picture.root, picture.Known literal.var
  distinct : (picture.root.map Literal.var).Nodup

/-- Every literal of a well-formed picture belongs to a known variable. -/
theorem WellFormed.known_of_mem (wellFormed : picture.WellFormed)
    (clause : literals ∈ picture.formula) {literal : Literal} (member : literal ∈ literals) :
    picture.Known literal.var := by
  rcases clause with clause | ⟨unit, atRoot, rfl⟩
  · exact ((wellFormed.admits literals clause).present literal member).known
  · rw [List.mem_singleton.1 member]
    exact wellFormed.known unit atRoot

theorem WellFormed.overVars (wellFormed : picture.WellFormed) :
    ∀ literals ∈ picture.formula, OverVars literals :=
  fun _ clause _ member => (wellFormed.known_of_mem clause member).1

/-- The form of a clause depends on the variables of the picture alone. -/
theorem Admits.of_same_vars {other : Picture} (admits : picture.Admits literals)
    (sameVars : other.numVars = picture.numVars) (sameRemoved : other.removed = picture.removed) :
    other.Admits literals := by
  refine ⟨admits.sorted, admits.two, fun literal member => ?_, admits.proper⟩
  obtain ⟨positive, inRange, kept, inRealm⟩ := admits.present literal member
  exact ⟨positive, sameVars ▸ inRange, sameRemoved ▸ kept, inRealm⟩

/-- A part of a clause with at least two literals has the form of a clause. -/
theorem Admits.of_sublist {literals part : List Literal} (admits : picture.Admits literals)
    (below : part.Sublist literals) (two : 2 ≤ part.length) : picture.Admits part where
  sorted := admits.sorted.sublist below
  two := two
  present literal member := admits.present literal (below.subset member)
  proper literal member inside := admits.proper literal (below.subset member) (below.subset inside)

theorem Admits.nodup (admits : picture.Admits literals) :
    literals.Nodup := Literal.nodup_of_pairwise_lt admits.sorted

/-- A clause has at most one literal of a variable. -/
theorem Admits.eq_of_var (admits : picture.Admits literals) {literal other : Literal}
    (member : literal ∈ literals) (inside : other ∈ literals) (same : other.var = literal.var) :
    other = literal := by
  have present := (admits.present literal member).1
  refine (Literal.eq_or_eq_complement present same).resolve_right fun opposite => ?_
  exact admits.proper literal member (opposite ▸ inside)

/-- A clause of three literals is no part of two. -/
theorem Contains.without_long {rest : Multiset (List Literal)} {a b : Literal}
    (wellFormed : picture.WellFormed) (split : picture.clauses = literals ::ₘ rest)
    (long : 3 ≤ literals.length) (contains : picture.Contains [a, b]) :
    Contains { picture with clauses := rest } [a, b] := by
  obtain ⟨part, clause | atRoot, small⟩ := contains
  · rcases Multiset.mem_cons.1 (split ▸ clause) with rfl | kept
    · have short : part.length ≤ [a, b].length :=
        ((wellFormed.admits part clause).nodup.subperm small).length_le
      exact absurd (le_trans long short) (by simp)
    · exact ⟨part, .inl kept, small⟩
  · exact ⟨part, .inr atRoot, small⟩

end Picture

/-! ## Steps -/

/-- How far a sequence of steps may go. -/
inductive Scope where
  /-- Clauses go only when a part of them stays. -/
  | propagation
  /-- Clauses go only when the others imply them. -/
  | equivalence
  /-- Clauses may go with a record, and variables with them. -/
  | removal
deriving DecidableEq

open Picture in
/-- One change of a formula. -/
inductive Step (scope : Scope) : Picture → Picture → Prop
  /-- A literal that follows by unit propagation, perhaps with the help of clauses
  that follow themselves, becomes a root literal. -/
  | assign {picture : Picture} (literal : Literal) (helpers : List (List Literal))
    (present : picture.Present literal.var)
    (isOpen : ∀ other ∈ picture.root, other.var ≠ literal.var)
    (helped : ∀ literals ∈ helpers, OverVars literals ∧ Rup picture.formula literals)
    (follows : Rup (picture.formula ∪ {literals | literals ∈ helpers}) [literal]) :
    Step scope picture
      { picture.logged (helpers.map ProofStep.added ++ [ProofStep.added [literal]] ++
          helpers.map ProofStep.removed) with root := picture.root ++ [literal] }
  /-- A clause that follows by unit propagation is added. No root variable comes
  back into the clauses with it. -/
  | learn {picture : Picture} (literals : List Literal)
    (admits : picture.Admits literals) (follows : Rup picture.formula literals)
    (known : ∀ literal ∈ literals, picture.Mentions literal.var ∨
      ∀ other ∈ picture.root, other.var ≠ literal.var) :
    Step scope picture
      { picture.logged [ProofStep.added literals] with clauses := literals ::ₘ picture.clauses }
  /-- A clause goes of which a part stays. -/
  | drop {picture : Picture} (literals : List Literal) (rest : Multiset (List Literal))
    (split : picture.clauses = literals ::ₘ rest)
    (contained : Contains { picture with clauses := rest } literals) :
    Step scope picture
      { picture with clauses := rest, pending := literals ::ₘ picture.pending }
  /-- A clause of at least three literals goes that the others imply. -/
  | dropImplied {picture : Picture} (literals : List Literal) (rest : Multiset (List Literal))
    (wide : scope ≠ .propagation) (long : 3 ≤ literals.length)
    (split : picture.clauses = literals ::ₘ rest)
    (implied : ∀ values, Holds { picture with clauses := rest } values →
      ClauseHolds values literals) :
    Step scope picture
      { picture with clauses := rest, pending := literals ::ₘ picture.pending }
  /-- The proof is told of a removal. -/
  | report {picture : Picture} (literals : List Literal) (rest : Multiset (List Literal))
    (split : picture.pending = literals ::ₘ rest) :
    Step scope picture { picture.logged [ProofStep.removed literals] with pending := rest }
  /-- Clauses go with records that make up for them. -/
  | weaken {picture : Picture} (gone kept : Multiset (List Literal)) (records : List Record)
    (wide : scope = .removal) (split : picture.clauses = gone + kept)
    (present : ∀ record ∈ records, ∀ literal ∈ record.literals, picture.Present literal.var)
    (unprotected : ∀ record ∈ records, ¬ picture.frozen record.chosen.var)
    (repairs : picture.irredundant → ∀ values, Holds { picture with clauses := kept } values →
      picture.Holds (unwind records values)) :
    Step scope picture
      { picture with
        clauses := kept
        pending := gone + picture.pending
        records := picture.records.pushAll records }
  /-- A variable goes that is mentioned nowhere. -/
  | retire {picture : Picture} (name : Nat) (wide : scope = .removal)
    (unprotected : ¬ picture.frozen name)
    (unmentioned : ∀ literals ∈ picture.formula, ∀ literal ∈ literals, literal.var ≠ name)
    (positive : 0 < name) :
    Step scope picture { picture with removed := fun other => other = name ∨ picture.removed other }
  /-- Whether clauses are redundant may change, but none becomes so. -/
  | recast {picture : Picture} (irredundant : Prop) (kept : picture.irredundant → irredundant) :
    Step scope picture { picture with irredundant := irredundant }

/-- A sequence of steps. -/
abbrev Steps (scope : Scope) : Picture → Picture → Prop := Relation.ReflTransGen (Step scope)

end CnfSimplifier
