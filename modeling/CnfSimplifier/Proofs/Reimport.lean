import CnfSimplifier.Proofs.ExchangedFormula
import CnfSimplifier.Proofs.ExchangeSafety
import CnfSimplifier.Proofs.Refilling

/-!
# Handing a formula over and taking it back

A formula that is handed to an empty solver and taken over again from it comes back as
it was: the same clauses in the same order, the same root literals. On its way it goes
through two numberings, a stream that is cut at zeros, and a solver that sorts units
from clauses and propagates; back in the simplifier every clause is looked at under
the root assignment before it is stored. All of this is neutral as long as every root
literal was applied to the clauses and every variable of the formula has a number.
-/
namespace CnfSimplifier

/-! ## Literals and their numbers -/

/-- A renamed literal is read back. -/
theorem Literal.ofInt_renamed {rename : Nat → Nat} {literal : Literal} {number : Nat}
    (renamed : rename literal.var = number) (present : 0 < number)
    (small : 2 * number + 1 < UInt32.size) :
    Literal.ofInt (literal.renamed rename) = Literal.ofVar number literal.isPositive := by
  have written : literal.renamed rename = (Literal.ofVar number literal.isPositive).toInt := by
    rw [Literal.toInt_ofVar present small, Literal.renamed, renamed]
  rw [written, Literal.ofInt_toInt]
  rwa [Literal.var_ofVar present small]

namespace Simplifier

variable {simplifier : Simplifier} {literal : Literal}

/-- Whatever is numbered is found under its number. -/
theorem ofNumbered?_of_number? (active : simplifier.numbering.isActive = true)
    (distinct : simplifier.numbering.names.toList.Nodup) (positive : 0 < literal.var)
    (small : 2 * literal.var + 1 < UInt32.size) {number : Nat}
    (found : simplifier.number? literal.var = some number)
    (smallNumber : 2 * number + 1 < UInt32.size) :
    simplifier.numbering.ofNumbered? (Literal.ofVar number literal.isPositive) = some literal := by
  unfold number? at found
  rw [if_pos active] at found
  obtain ⟨place, atPlace, rfl⟩ := (Numbering.number?_eq_some distinct).1 found
  have name : simplifier.numbering.varOf? (place + 1) = some literal.var := by
    have inArray : simplifier.numbering.names[place]? = some literal.var := by
      rw [← Array.getElem?_toList, atPlace]
    simp [Numbering.varOf?, inArray, positive]
  rw [Numbering.ofNumbered?, Literal.var_ofVar (Nat.succ_pos place) smallNumber, name,
    Literal.isPositive_ofVar (Nat.succ_pos place) smallNumber, Option.map_some, Option.some.injEq]
  exact Literal.ext_var (Literal.var_ofVar positive small) (Literal.isPositive_ofVar positive small)

/-- No variables come in when there are enough. -/
theorem reserveExported_of_le {number : Nat} (enough : number ≤ simplifier.numExported) :
    reserveExported number simplifier = .done () simplifier := by
  unfold reserveExported
  rw [Run.bind_of_done (Run.get_apply simplifier), Nat.sub_eq_zero_of_le enough]
  rfl

/-- A variable that is there and was not removed passes the check. -/
theorem checkPresent_of_present (inside : literal.var < simplifier.engine.trail.vars.size)
    (kept : ¬ simplifier.engine.trail.Removed literal.var) :
    checkPresent literal simplifier = .done () simplifier := by
  obtain ⟨flags, found⟩ : ∃ flags, simplifier.engine.trail.flags? literal.var = some flags :=
    ⟨_, by rw [Trail.flags?, Array.getElem?_eq_getElem inside, Option.map_some]⟩
  have plain : flags.isRemoved = false := by
    rw [← Bool.not_eq_true]
    exact fun removed => kept ⟨flags, found, removed⟩
  simp [checkPresent, Run.read, Run.bind_apply, found, plain]

/-- A literal that the formula may have and that has an exported form. -/
structure Carries (simplifier : Simplifier) (literal : Literal) : Prop where
  positive : 0 < literal.var
  small : literal.var ≤ simplifier.numVars
  kept : ¬ simplifier.engine.trail.Removed literal.var
  numbered : ∃ number, simplifier.number? literal.var = some number

end Simplifier

namespace Solver

open Simplifier

variable {simplifier : Simplifier} {literal : Literal}

/-- A literal is read back from its exported form. -/
theorem importLiteral_renamed (exportable : simplifier.Exportable)
    (carries : simplifier.Carries literal) :
    importLiteral (literal.renamed simplifier.rename) simplifier = .done literal simplifier := by
  obtain ⟨number, found⟩ := carries.numbered
  obtain ⟨present, enough, smallNumber⟩ := number?_inRange exportable carries.positive carries.small
    found
  have renamed : simplifier.rename literal.var = number := rename_eq found
  have inside := Trail.lt_of_le_numVars exportable.trail.nonempty carries.small
  have nonzero : literal.renamed simplifier.rename ≠ 0 := by
    rw [← Int.natAbs_ne_zero, Literal.natAbs_renamed, renamed]
    omega
  have checked := checkPresent_of_present inside carries.kept
  unfold importLiteral
  rw [if_neg nonzero, Literal.ofInt_renamed renamed present smallNumber]
  dsimp only
  rw [Literal.var_ofVar present smallNumber, Run.bind_of_done (reserveExported_of_le enough),
    Run.bind_of_done (Run.get_apply simplifier)]
  by_cases active : simplifier.numbering.isActive = true
  · rw [if_pos active, ofNumbered?_of_number? active (exportable.numbered active).1 carries.positive
      (exportable.trail.small_of_lt inside) found smallNumber]
    exact Run.bind_of_done checked
  · have same : number = literal.var := by
      unfold number? at found
      rw [if_neg active, Option.some.injEq] at found
      exact found.symm
    have back : Literal.ofVar number literal.isPositive = literal := by
      subst same
      exact Literal.ext_var (Literal.var_ofVar present smallNumber)
        (Literal.isPositive_ofVar present smallNumber)
    rw [if_neg active, back]
    exact Run.bind_of_done checked

/-- The literals of a clause are read back. -/
theorem importLiterals_renamed (exportable : simplifier.Exportable) {literals : List Literal}
    (carries : ∀ literal ∈ literals, simplifier.Carries literal) :
    importLiterals (literals.map (Literal.renamed simplifier.rename)) simplifier =
      .done literals simplifier := by
  induction literals with
  | nil => rfl
  | cons literal rest ih =>
    obtain ⟨first, others⟩ := List.forall_mem_cons.1 carries
    rw [List.map_cons, importLiterals,
      Run.bind_of_done (importLiteral_renamed exportable first), Run.bind_of_done (ih others)]
    rfl

/-- Clauses are read back, in their order. -/
theorem importClauses_renamed (exportable : simplifier.Exportable) {clauses : List (List Literal)}
    (carries : ∀ clause ∈ clauses, ∀ literal ∈ clause, simplifier.Carries literal) :
    importClauses (clauses.map (List.map (Literal.renamed simplifier.rename))) simplifier =
      .done clauses simplifier := by
  induction clauses with
  | nil => rfl
  | cons clause rest ih =>
    obtain ⟨first, others⟩ := List.forall_mem_cons.1 carries
    rw [List.map_cons, importClauses,
      Run.bind_of_done (importLiterals_renamed exportable first), Run.bind_of_done (ih others)]
    rfl

end Solver

/-! ## A solver that is given a formula -/

namespace SearchSolver

variable {solver : SearchSolver}

/-- What the solver holds after units and clauses were given to it: the units on its
trail, the clauses behind its own, and not more variables than there are. -/
structure Filled (solver : SearchSolver) (units : List Int) (lists : List (List Int)) (bound : Nat)
    (after : SearchSolver) : Prop where
  trail : after.trail = solver.trail ++ units
  clauses : after.clauses = solver.clauses ++ lists
  inconsistent : after.inconsistent = solver.inconsistent
  numVars : after.numVars ≤ bound

/-- A unit of a new variable is assigned. -/
theorem assign_of_new {literal : Int} (new : ∀ other ∈ solver.trail, other.natAbs ≠ literal.natAbs) :
    assign literal solver = .done ()
      { solver.grow literal with trail := solver.trail ++ [literal] } := by
  have absent : ∀ other : Int, other.natAbs = literal.natAbs → (solver.trail.contains other) = false := by
    intro other same
    rw [← Bool.not_eq_true, List.contains_iff_mem]
    exact fun member => new other member same
  simp only [assign, grow, Run.bind_apply, Run.modify_apply, Run.get_apply,
    absent _ (Int.natAbs_neg literal), absent _ rfl, Bool.false_eq_true, if_false]

/-- Clauses of several literals are put behind the others. -/
theorem giveExported_clauses {lists : List (List Int)} {bound : Nat}
    (long : ∀ list ∈ lists, 2 ≤ list.length)
    (small : ∀ list ∈ lists, ∀ literal ∈ list, literal.natAbs ≤ bound)
    (room : solver.numVars ≤ bound) :
    (Solver.giveExported lists : Run SearchSolver Unit).Returns solver fun _ after =>
      solver.Filled [] lists bound after := by
  induction lists generalizing solver with
  | nil => exact .pure ⟨by simp, by simp, rfl, room⟩
  | cons list rest ih =>
    obtain ⟨longFirst, longRest⟩ := List.forall_mem_cons.1 long
    obtain ⟨smallFirst, smallRest⟩ := List.forall_mem_cons.1 small
    have nonempty : list ≠ [] := by
      rintro rfl
      cases longFirst
    obtain ⟨middle, added, gains⟩ := @addClause_of_nonempty solver list nonempty
    have roomMiddle : middle.numVars ≤ bound := by
      rw [gains.numVars]
      exact foldl_max_le room (by simpa using smallFirst)
    have given : (Solver.giveExported (list :: rest) : Run SearchSolver Unit) solver =
        (Solver.giveExported rest : Run SearchSolver Unit) middle := by
      rcases list with _ | ⟨first, _ | ⟨second, others⟩⟩
      · exact absurd rfl nonempty
      · exact absurd longFirst (by simp)
      · exact Run.bind_of_done added
    obtain ⟨value, after, ended, filled⟩ := ih longRest smallRest roomMiddle
    refine ⟨value, after, given.trans ended, ?_, ?_, ?_, filled.numVars⟩
    · rw [filled.trail, gains.trail]
    · rw [filled.clauses, gains.clauses, List.append_assoc, List.singleton_append]
    · rw [filled.inconsistent, gains.inconsistent]

/-- Units of different new variables become root literals, and clauses of several
literals are kept. -/
theorem giveExported_returns {units : List Int} {lists : List (List Int)} {bound : Nat}
    (distinct : ((solver.trail ++ units).map Int.natAbs).Nodup)
    (smallUnits : ∀ literal ∈ units, literal.natAbs ≤ bound)
    (long : ∀ list ∈ lists, 2 ≤ list.length)
    (small : ∀ list ∈ lists, ∀ literal ∈ list, literal.natAbs ≤ bound)
    (room : solver.numVars ≤ bound) :
    (Solver.giveExported (units.map (fun literal => [literal]) ++ lists) :
      Run SearchSolver Unit).Returns solver fun _ after => solver.Filled units lists bound after := by
  induction units generalizing solver with
  | nil => exact giveExported_clauses long small room
  | cons literal rest ih =>
    obtain ⟨smallFirst, smallRest⟩ := List.forall_mem_cons.1 smallUnits
    have new : ∀ other ∈ solver.trail, other.natAbs ≠ literal.natAbs := by
      rw [List.map_append, List.nodup_append] at distinct
      exact fun other member => distinct.2.2 _ (List.mem_map_of_mem member) _ (by simp)
    refine .step (assign_of_new new) ?_
    refine (ih ?_ smallRest ?_).imp fun _ after filled => ?_
    · simpa using distinct
    · exact max_le room smallFirst
    · exact ⟨by simp [filled.trail], filled.clauses, filled.inconsistent, filled.numVars⟩

/-- The root literals of the solver are out of its clauses, and no clause is a unit. -/
def Closed (solver : SearchSolver) : Prop :=
  ∀ clause ∈ solver.clauses, 2 ≤ clause.length ∧
    ∀ literal ∈ clause, literal ∉ solver.trail ∧ -literal ∉ solver.trail

/-- Where no clause is unit a pass does nothing. -/
theorem propagatePass_of_closed {pending : List (List Int)}
    (closed : ∀ clause ∈ pending, 2 ≤ clause.length ∧
      ∀ literal ∈ clause, literal ∉ solver.trail ∧ -literal ∉ solver.trail) :
    propagatePass pending false solver = .done false solver := by
  induction pending with
  | nil => rfl
  | cons clause rest ih =>
    obtain ⟨⟨long, unassigned⟩, others⟩ := List.forall_mem_cons.1 closed
    have unsatisfied : (clause.any fun l => solver.trail.contains l) = false := by
      rw [List.any_eq_false]
      exact fun literal member => by simpa using (unassigned literal member).1
    have whole : (clause.filter fun l => !solver.trail.contains (-l)) = clause := by
      rw [List.filter_eq_self]
      exact fun literal member => by simpa using (unassigned literal member).2
    rcases clause with _ | ⟨first, _ | ⟨second, tail⟩⟩
    · exact absurd long (by simp)
    · exact absurd long (by simp)
    · rw [propagatePass, Run.bind_of_done (Run.get_apply solver)]
      simp only [unsatisfied, whole, Bool.false_eq_true, if_false]
      exact ih others

/-- Propagation finds nothing in such a solver. -/
theorem propagate_of_closed (closed : solver.Closed) : propagate solver = .done () solver := by
  unfold propagate
  rw [Run.bind_of_done (Run.get_apply solver), propagateLoop,
    Run.bind_of_done (Run.get_apply solver), Run.bind_of_done (propagatePass_of_closed closed)]
  rfl

end SearchSolver

/-! ## There and back -/

namespace Simplifier

variable {simplifier start before : Simplifier} {records : List Record} {settings : Settings}
  {entries : List Dealt}

/-- The variables of the root literals and of the live clauses have numbers. -/
def NumbersAll (simplifier : Simplifier) : Prop :=
  ∀ literal ∈ simplifier.engine.trail.rootLiterals ++
    simplifier.engine.arena.liveClauses.flatMap Clause.literals, simplifier.Numbered literal.var

instance (simplifier : Simplifier) : Decidable simplifier.NumbersAll :=
  inferInstanceAs (Decidable (∀ literal ∈ _ ++ _, _))

/-- The formula comes back as it was. -/
structure Restored (before after : Simplifier) : Prop where
  clauses : after.engine.arena.liveClauses.map Clause.literals =
    before.engine.arena.liveClauses.map Clause.literals
  trail : after.engine.trail = before.engine.trail
  records : after.engine.records = before.engine.records
  numbering : after.numbering = before.numbering

/-- The root literals under their numbers. -/
def sentUnits (simplifier : Simplifier) : List Int :=
  simplifier.engine.trail.rootLiterals.map (Literal.renamed simplifier.rename)

/-- The live clauses under the numbers of their variables. -/
def sentClauses (simplifier : Simplifier) : List (List Int) :=
  (simplifier.engine.arena.liveClauses.map Clause.literals).map
    (List.map (Literal.renamed simplifier.rename))

theorem mem_sentClauses {list : List Int} : list ∈ simplifier.sentClauses ↔
    ∃ clause ∈ simplifier.engine.arena.liveClauses,
      clause.literals.map (Literal.renamed simplifier.rename) = list := by
  simp [sentClauses]

/-- A simplifier whose formula can make the way: the formula is open, all root literals
were applied to the clauses, and all variables of the formula have numbers. -/
structure Ready (simplifier : Simplifier) (records : List Record) : Prop where
  standing : simplifier.Standing records
  isOpen : simplifier.engine.unsat = false
  applied : simplifier.engine.applied = simplifier.engine.trail.literals.size
  numbered : simplifier.NumbersAll

namespace Ready

variable {clause : Clause}

theorem exportable (ready : simplifier.Ready records) : simplifier.Exportable :=
  ready.standing.exportable ready.isOpen

/-- Every root literal has an exported form. -/
theorem root_carries (ready : simplifier.Ready records) :
    ∀ literal ∈ simplifier.engine.trail.rootLiterals, simplifier.Carries literal := by
  let _ : Realm := .all
  intro literal atRoot
  have fact : literal ∈ simplifier.engine.trail.facts := by
    rwa [← ready.exportable.rootLiterals]
  obtain ⟨positive, small, kept, _⟩ := ready.standing.sane.formed.known literal fact
  exact ⟨positive, small, kept.resolve_right id,
    (ready.numbered literal (List.mem_append_left _ atRoot)).exists_number?⟩

theorem mem_clauses (live : clause ∈ simplifier.engine.arena.liveClauses) :
    clause.literals ∈ simplifier.engine.picture.clauses := by
  change clause.literals ∈ simplifier.engine.arena.contents
  rw [Arena.contents_eq_liveClauses]
  exact List.mem_map_of_mem live

/-- So has every literal of a live clause. -/
theorem clauses_carry (ready : simplifier.Ready records) :
    ∀ clause ∈ simplifier.engine.arena.liveClauses, ∀ literal ∈ clause.literals,
      simplifier.Carries literal := by
  let _ : Realm := .all
  intro clause live literal member
  obtain ⟨positive, small, kept, _⟩ :=
    (ready.standing.sane.formed.admits _ (mem_clauses live)).present literal member
  exact ⟨positive, small, kept.resolve_right id, (ready.numbered literal
    (List.mem_append_right _ (List.mem_flatMap.2 ⟨clause, live, member⟩))).exists_number?⟩

/-- No clause has a literal of a root variable. -/
theorem apart (ready : simplifier.Ready records)
    (live : clause ∈ simplifier.engine.arena.liveClauses) :
    ∀ literal ∈ clause.literals, ∀ other ∈ simplifier.engine.trail.facts,
      other.var ≠ literal.var := by
  intro literal member other atRoot same
  obtain ⟨orderly, _, unmentioned⟩ := ready.standing.settled ready.isOpen
  have all : simplifier.engine.picture.root.take simplifier.engine.applied =
      simplifier.engine.picture.root := by
    refine List.take_of_length_le ?_
    change simplifier.engine.trail.facts.length ≤ _
    rw [orderly, ready.applied, Array.length_toList]
  exact unmentioned other (by rwa [all]) ⟨_, mem_clauses live, literal, member, same.symm⟩

/-- The clauses are welcome where they are. -/
theorem welcomes (ready : simplifier.Ready records)
    (live : clause ∈ simplifier.engine.arena.liveClauses) :
    simplifier.engine.trail.Welcomes clause.literals := by
  let _ : Realm := .all
  obtain ⟨sorted, two, present, proper⟩ :=
    ready.standing.sane.formed.admits _ (mem_clauses live)
  refine ⟨sorted, two, proper, fun literal member => ?_, fun literal member => ?_⟩
  · exact ⟨(present literal member).1, (present literal member).2.1⟩
  · have trail := ready.exportable.trail
    have inside := Trail.lt_of_le_numVars trail.nonempty (present literal member).2.1
    exact trail.agrees.literalValue?_of_open (present literal member).1 inside
      (ready.apart live literal member)

/-- The formula as it is exported. -/
theorem exportedClauses_eq (ready : simplifier.Ready records) : simplifier.exportedClauses =
    simplifier.sentUnits.map (fun literal => [literal]) ++ simplifier.sentClauses := by
  let _ : Realm := .all
  have sound := ready.standing.sound
  have numbers : simplifier.Numbers := by
    rintro clause (stored | ⟨literal, atRoot, rfl⟩) inside member
    · change clause ∈ simplifier.engine.arena.contents at stored
      rw [Arena.contents_eq_liveClauses] at stored
      obtain ⟨live, isLive, rfl⟩ := List.mem_map.1 stored
      exact (ready.clauses_carry live isLive inside member).numbered
    · rw [List.mem_singleton.1 member]
      refine (ready.root_carries literal ?_).numbered
      rwa [ready.exportable.rootLiterals]
  rw [Simplifier.exportedClauses_eq ready.exportable sound,
    exportedLists_eq ready.exportable sound ready.isOpen numbers, sentUnits, sentClauses,
    List.map_map, List.map_map]
  rfl

theorem natAbs_le (ready : simplifier.Ready records) {literal : Literal}
    (carries : simplifier.Carries literal) :
    (literal.renamed simplifier.rename).natAbs ≤ simplifier.numExported := by
  obtain ⟨number, found⟩ := carries.numbered
  rw [Literal.natAbs_renamed, rename_eq found]
  exact (number?_inRange ready.exportable carries.positive carries.small found).2.1

theorem sentUnits_le (ready : simplifier.Ready records) :
    ∀ literal ∈ simplifier.sentUnits, literal.natAbs ≤ simplifier.numExported := by
  intro _ member
  obtain ⟨literal, atRoot, rfl⟩ := List.mem_map.1 member
  exact ready.natAbs_le (ready.root_carries literal atRoot)

/-- What is sent is over exported numbers. -/
theorem sentClauses_le (ready : simplifier.Ready records) :
    ∀ list ∈ simplifier.sentClauses, ∀ literal ∈ list, literal.natAbs ≤ simplifier.numExported := by
  intro _ member literal inside
  obtain ⟨clause, live, rfl⟩ := mem_sentClauses.1 member
  obtain ⟨literal, inClause, rfl⟩ := List.mem_map.1 inside
  exact ready.natAbs_le (ready.clauses_carry clause live literal inClause)

theorem two_le_length (ready : simplifier.Ready records) :
    ∀ list ∈ simplifier.sentClauses, 2 ≤ list.length := by
  intro _ member
  obtain ⟨clause, live, rfl⟩ := mem_sentClauses.1 member
  rw [List.length_map]
  exact (ready.welcomes live).two

/-- The units are of different variables. -/
theorem nodup_sentUnits (ready : simplifier.Ready records) :
    (simplifier.sentUnits.map Int.natAbs).Nodup := by
  let _ : Realm := .all
  have names : simplifier.sentUnits.map Int.natAbs =
      (simplifier.engine.trail.facts.map Literal.var).map simplifier.rename := by
    rw [sentUnits, ready.exportable.rootLiterals, List.map_map, List.map_map]
    exact List.map_congr_left fun literal _ => Literal.natAbs_renamed simplifier.rename literal
  rw [names]
  exact ready.standing.sane.formed.distinct.map (rename_injective ready.exportable)

/-- No clause has a literal of the variable of a unit. -/
theorem natAbs_ne (ready : simplifier.Ready records) {list : List Int}
    (member : list ∈ simplifier.sentClauses) {literal unit : Int} (inside : literal ∈ list)
    (isUnit : unit ∈ simplifier.sentUnits) : unit.natAbs ≠ literal.natAbs := by
  obtain ⟨clause, live, rfl⟩ := mem_sentClauses.1 member
  obtain ⟨literal, inClause, rfl⟩ := List.mem_map.1 inside
  obtain ⟨other, atRoot, rfl⟩ := List.mem_map.1 isUnit
  rw [ready.exportable.rootLiterals] at atRoot
  rw [Literal.natAbs_renamed, Literal.natAbs_renamed]
  exact fun same => ready.apart live literal inClause other atRoot
    (rename_injective ready.exportable same)

end Ready

end Simplifier

namespace Run

variable {σ τ α : Type}

theorem attempt_of_done {body : Run σ α} {state after : σ} {value : α}
    (ended : body state = .done value after) : body.attempt state = .done (.ok value) after := by
  simp [attempt, ended]

theorem onFirst_of_done {body : Run σ α} {state after : σ} {other : τ} {value : α}
    (ended : body state = .done value after) :
    (Run.onFirst body) (state, other) = .done value (after, other) := by
  simp [Run.onFirst, ended]

theorem onSecond_of_done {body : Run τ α} {state after : τ} {other : σ} {value : α}
    (ended : body state = .done value after) :
    (Run.onSecond body) (other, state) = .done value (other, after) := by
  simp [Run.onSecond, ended]

end Run

namespace Solver

open Simplifier

variable {simplifier : Simplifier} {records : List Record}

/-- An empty solver takes the formula, and finds nothing to propagate. -/
theorem handBack_of_ready (ready : simplifier.Ready records) : ∃ solver : SearchSolver,
    handBack SearchSolver ({}, simplifier) = .done () (solver, simplifier) ∧
      ({} : SearchSolver).Filled simplifier.sentUnits simplifier.sentClauses
        simplifier.numExported solver := by
  obtain ⟨_, given, gave, filled⟩ := @SearchSolver.giveExported_returns {} simplifier.sentUnits
    simplifier.sentClauses simplifier.numExported ready.nodup_sentUnits ready.sentUnits_le
    ready.two_le_length ready.sentClauses_le (Nat.zero_le _)
  have closed : given.Closed := by
    intro list member
    rw [filled.clauses] at member
    refine ⟨ready.two_le_length list member, fun literal inside => ?_⟩
    rw [filled.trail]
    exact ⟨fun isUnit => ready.natAbs_ne member inside isUnit rfl,
      fun isUnit => ready.natAbs_ne member inside isUnit (Int.natAbs_neg literal)⟩
  refine ⟨{ given with phases := given.phases ++ exportedPhases simplifier }, ?_, filled.trail,
    filled.clauses, filled.inconsistent, filled.numVars⟩
  rw [← ready.exportedClauses_eq] at gave
  have propagated : Solver.propagate given = .done () given :=
    SearchSolver.propagate_of_closed closed
  have suggested := SearchSolver.suggestAll_eq (exportedPhases simplifier) given
  exact (Run.bind_of_done (Run.onFirst_of_done gave)).trans
    ((Run.bind_of_done (Run.onFirst_of_done propagated)).trans (Run.onFirst_of_done suggested))

/-- What is read back: the root literals as units, and the clauses. -/
theorem importAll_of_ready (ready : simplifier.Ready records) :
    (do
      let units ← importLiterals simplifier.sentUnits
      let literals ← importClauses simplifier.sentClauses
      return units.map (fun unit => [unit]) ++ literals : Run Simplifier (List (List Literal)))
      simplifier = .done
        (simplifier.engine.trail.rootLiterals.map (fun unit => [unit]) ++
          simplifier.engine.arena.liveClauses.map Clause.literals) simplifier := by
  have units := importLiterals_renamed ready.exportable ready.root_carries
  have clauses : importClauses simplifier.sentClauses simplifier =
      .done (simplifier.engine.arena.liveClauses.map Clause.literals) simplifier :=
    importClauses_renamed ready.exportable (by simpa using ready.clauses_carry)
  exact (Run.bind_of_done units).trans (Run.bind_of_done clauses)

/-- The formula that was read back is stored as it was. -/
theorem storeAll_of_ready {emptied : Simplifier} (ready : simplifier.Ready records)
    (empties : simplifier.Empties emptied) :
    (storeAll (simplifier.engine.trail.rootLiterals.map (fun unit => [unit]) ++
      simplifier.engine.arena.liveClauses.map Clause.literals)).Returns emptied.engine
      fun _ after => emptied.engine.Appends
        (simplifier.engine.arena.liveClauses.map Clause.literals) after := by
  have welcome : ∀ clause ∈ simplifier.engine.arena.liveClauses.map Clause.literals,
      emptied.engine.trail.Welcomes clause := by
    intro _ member
    obtain ⟨clause, live, rfl⟩ := List.mem_map.1 member
    exact empties.trail ▸ ready.welcomes live
  have units : ∀ literal ∈ simplifier.engine.trail.rootLiterals, 0 < literal.var ∧
      literal.var ≤ emptied.engine.numVars ∧
      emptied.engine.trail.literalValue? literal = some (some true) := by
    intro literal atRoot
    have carries := ready.root_carries literal atRoot
    rw [ready.exportable.rootLiterals] at atRoot
    unfold Engine.numVars
    rw [empties.trail]
    exact ⟨carries.positive, carries.small,
      Trail.literalValue?_eq_true.2 (Trail.mem_facts.1 atRoot).2⟩
  have space : emptied.engine.arena.slots.size +
      (simplifier.engine.arena.liveClauses.map Clause.literals).length < UInt32.size := by
    have fewer : simplifier.engine.arena.liveClauses.length ≤
        simplifier.engine.arena.slots.toList.length := List.length_filter_le _ _
    have small := ready.standing.sane.space
    rw [Array.length_toList] at fewer
    rw [empties.slots, List.length_map, Array.size_empty, Nat.zero_add]
    exact fewer.trans_lt small
  obtain ⟨_, after, ended, appends⟩ := storeAll_returns empties.inStep welcome space
  exact ⟨_, after, (storeAll_units _ units).trans ended, appends⟩

/-- What a solver was given is taken over from it again. -/
theorem takeOver_of_ready {solver : SearchSolver} (ready : simplifier.Ready records)
    (idle : simplifier.tools.Idle) (filled : ({} : SearchSolver).Filled simplifier.sentUnits
      simplifier.sentClauses simplifier.numExported solver) :
    ∃ left after, takeOver SearchSolver (solver, simplifier) = .done () (left, after) ∧
      Restored simplifier after := by
  obtain ⟨released, emptied, gaveUp, collected, empties⟩ :=
    exists_emptied ready.standing.sane.toInStep idle
  obtain ⟨_, engine, stored, appends⟩ := storeAll_of_ready ready empties
  have reserved := reserveExported_of_le filled.numVars
  have trail : solver.trail = simplifier.sentUnits := filled.trail
  have clauses : solver.clauses = simplifier.sentClauses := filled.clauses
  have taken : (Solver.takeClauses : Run SearchSolver _) solver =
      .done simplifier.sentClauses { solver with clauses := [] } := clauses ▸ rfl
  have read := Run.attempt_of_done (importAll_of_ready ready)
  rw [← trail] at read
  refine ⟨{ solver with clauses := [] }, { emptied with engine := engine }, ?_, ?_,
    appends.trail.trans empties.trail, appends.records.trans empties.records, empties.numbering⟩
  · refine (Run.bind_of_done (Run.onSecond_of_done reserved)).trans
      ((Run.bind_of_done (Run.onFirst_of_done taken)).trans ?_)
    refine (Run.bind_of_done (Run.onSecond_of_done read)).trans ?_
    exact (Run.bind_of_done (Run.onSecond_of_done gaveUp)).trans
      ((Run.bind_of_done (Run.onSecond_of_done collected)).trans
        (Run.onSecond_of_done (lift_of_done stored)))
  · refine Arena.liveClauses_of_slots (by rw [appends.slots, empties.slots]; rfl) ?_
    intro _ member
    obtain ⟨clause, live, rfl⟩ := List.mem_map.1 member
    exact clause.sorted

end Solver

namespace Simplifier

variable {start before : Simplifier} {settings : Settings} {entries : List Dealt}

/-- However a simplifier was dealt with: if its formula is open, all root literals were
applied to the clauses and all variables of the formula have numbers, then an empty
solver takes the formula, and taking it over from the solver restores it: the clauses
in their order, the trail with the root literals and the marks of removed variables,
and the records. -/
theorem restored_of_handBack (begun : Begun settings start)
    (dealings : Dealings start entries before) (isOpen : before.engine.unsat = false)
    (applied : before.engine.applied = before.engine.trail.literals.size)
    (numbered : before.NumbersAll) :
    ∃ solver left after,
      Solver.handBack SearchSolver ({}, before) = .done () (solver, before) ∧
      Solver.takeOver SearchSolver (solver, before) = .done () (left, after) ∧
      Restored before after := by
  obtain ⟨records, kept⟩ := dealings.exists_kept begun.fresh
  have ready : before.Ready records := ⟨kept.standing, isOpen, applied, numbered⟩
  obtain ⟨solver, given, filled⟩ := Solver.handBack_of_ready ready
  obtain ⟨left, after, taken, restored⟩ :=
    Solver.takeOver_of_ready ready (dealings.atRest begun).idle filled
  exact ⟨solver, left, after, given, taken, restored⟩

/-- A formula with a unit and a gap in its variables, which a run numbers. -/
theorem restored_of_handBack_renumbered :
    ∃ start entries before solver left after,
      ofClauses { Settings.bare {} with renumbering := true } [[2], [3, 5], [-2, 5, -3, 6]] =
        .done () start ∧
      Dealings start entries before ∧ before.numbering.names = #[2, 3, 5, 6] ∧
      Solver.handBack SearchSolver ({}, before) = .done () (solver, before) ∧
      Solver.takeOver SearchSolver (solver, before) = .done () (left, after) ∧
      Restored before after := by
  obtain ⟨start, entries, before, made, dealings, checked⟩ := exists_of_dealTrial
    (ofClauses { Settings.bare {} with renumbering := true } [[2], [3, 5], [-2, 5, -3, 6]])
    [.call (.run false)] (fun _ before => before.numbering.names == #[2, 3, 5, 6] &&
      !before.engine.unsat && before.engine.applied == before.engine.trail.literals.size &&
      decide before.NumbersAll) (by decide +kernel)
  simp only [Bool.and_eq_true, beq_iff_eq, Bool.not_eq_true', decide_eq_true_eq] at checked
  obtain ⟨⟨⟨names, isOpen⟩, applied⟩, numbered⟩ := checked
  obtain ⟨solver, left, after, given, taken, restored⟩ := restored_of_handBack
    (.formula made (by decide)) dealings isOpen applied numbered
  exact ⟨start, entries, before, solver, left, after, made, dealings, names, given, taken, restored⟩

end Simplifier

end CnfSimplifier
