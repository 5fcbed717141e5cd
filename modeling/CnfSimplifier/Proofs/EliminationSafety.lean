import CnfSimplifier.Proofs.EliminationEnds
import CnfSimplifier.Proofs.HeapPlaces

/-!
# Elimination stays inside the tables

A variable is eliminated from handles of clauses that are alive when it is tried. Some of
these clauses go on the way and the formula need not be sound until all of them went, but
their handles stay good. What is reported are variables of the engine, so they find their
places in the heap.
-/
namespace CnfSimplifier

open Engine (Firm)

/-- A run that makes no access outside the tables and comes to its end can lack nothing else. -/
theorem Run.Meets.fares {σ α : Type} {body : Run σ α} {state : σ} {done : α → σ → Prop}
    {failed : Error → σ → Prop} (lands : body.Lands state done failed) (fuel : body.KeepsFuel state) :
    body.Fares state done failed := by
  refine ⟨lands.ends, fun why stuck => ?_⟩
  cases why with
  | badAccess => exact absurd rfl (lands.safe _ stuck)
  | outOfFuel => exact absurd rfl (fuel _ stuck)
  | outOfSpace => rfl

variable {base : Engine}

namespace Gate

variable {arena : Arena} {output : Literal}

/-- Whether binary clauses belong to a gate can be told if all of them are in the arena. -/
theorem exists_binaries? {entries : List (Handle × Nat)}
    (stored : ∀ entry ∈ entries, ∃ clause, arena.get? entry.1 = some clause) :
    ∃ found, binaries? arena output entries = some found := by
  induction entries with
  | nil => exact ⟨[], rfl⟩
  | cons entry rest ih =>
    obtain ⟨handle, place⟩ := entry
    obtain ⟨⟨clause, own⟩, others⟩ := List.forall_mem_cons.1 stored
    obtain ⟨found, ended⟩ := ih others
    dsimp only at own
    simp only [binaries?, own, ended, Option.bind_eq_bind, Option.bind_some]
    exact ⟨_, rfl⟩

/-- Among stored clauses the search for a gate has an answer. -/
theorem exists_find? {binaries : List (Literal × Nat)} {handles : List Handle}
    (stored : ∀ handle ∈ handles, ∃ clause, arena.get? handle = some clause) (place : Nat) :
    ∃ found, find? arena output binaries handles place = some found := by
  induction handles generalizing place with
  | nil => exact ⟨none, rfl⟩
  | cons handle rest ih =>
    obtain ⟨⟨clause, own⟩, others⟩ := List.forall_mem_cons.1 stored
    simp only [find?, own, Option.bind_eq_bind, Option.bind_some]
    split
    · exact ⟨_, rfl⟩
    · exact ih others (place + 1)

/-- Whether a literal is the output of a gate can be told. -/
theorem exists_onOutput? {withOutput withComplement : Array Handle}
    (stored : ∀ handle ∈ withOutput.toList, ∃ clause, arena.get? handle = some clause)
    (opposite : ∀ handle ∈ withComplement.toList, ∃ clause, arena.get? handle = some clause) :
    ∃ found, onOutput? arena output withOutput withComplement = some found := by
  obtain ⟨binaries, isBinaries⟩ : ∃ binaries,
      binaries? arena output withComplement.toList.zipIdx = some binaries :=
    exists_binaries? fun entry member => opposite _ (List.fst_mem_of_mem_zipIdx member)
  obtain ⟨found, isFound⟩ : ∃ found, find? arena output binaries withOutput.toList 0 = some found :=
    exists_find? stored 0
  unfold onOutput?
  simp only [isBinaries, isFound, Option.bind_eq_bind, Option.bind_some]
  split
  · exact ⟨_, rfl⟩
  · split <;> exact ⟨_, rfl⟩

/-- A gate can be looked for among clauses of the arena. -/
theorem exists_search? {name : Nat} {positive negative : Array Handle}
    (stored : ∀ handle ∈ positive.toList, ∃ clause, arena.get? handle = some clause)
    (opposite : ∀ handle ∈ negative.toList, ∃ clause, arena.get? handle = some clause) :
    ∃ sides, search? arena name positive negative = some sides := by
  obtain ⟨first, onFirst⟩ : ∃ found, onOutput? arena (Literal.ofVar name true) positive negative =
      some found := exists_onOutput? stored opposite
  obtain ⟨second, onSecond⟩ : ∃ found, onOutput? arena (Literal.ofVar name true).complement
      negative positive = some found := exists_onOutput? opposite stored
  simp only [search?, onFirst, onSecond, Option.bind_eq_bind, Option.bind_some]
  split <;> exact ⟨_, rfl⟩

end Gate

namespace Engine

variable {handle : Handle} {literal : Literal}

theorem stays_markClause {change : ClauseFlags → ClauseFlags}
    (dead : ∀ flags, flags.dead = true → (change flags).dead = true) :
    (markClause handle change).StaysIn (Firm base) fun _ => True := by
  refine .modify fun engine firm => ?_
  split
  next arena marked => exact firm.with_arena (TolerantOfMarks.marks dead marked)
  next => exact firm

theorem stays_look {α : Type} {question : Engine → α} {found : α → Prop}
    (holds : ∀ engine, Firm base engine → found (question engine)) :
    (look question).StaysIn (Firm base) found :=
  fun engine firm => .of_done rfl ⟨firm, holds engine firm⟩

/-- Clauses are listed for every literal. -/
theorem exists_occurrences {engine : Engine} (firm : Firm base engine) (owns : base.Owns literal) :
    ∃ listed, (engine.index.list? literal).map Array.toList = some listed := by
  have inside := firm.index_lt owns
  simp [Occurrences.list?, Occurrences.entry?, Array.getElem?_eq_getElem inside]

end Engine

namespace Subsumer

/-- The handles that wait for subsumption are no older than the epoch. -/
structure Current (base : Engine) (state : Tool Subsumer × Engine) : Prop where
  firm : Firm base state.2
  queue : ∀ handle ∈ state.1.own.queue, handle.epoch = base.arena.epoch

/-- Work on the engine leaves the tool stocked. -/
theorem stays_lift {α : Type} {body : Run Engine α} {found : α → Prop}
    (stays : body.StaysIn (Firm base) found) :
    Run.StaysIn (Current base) (liftM body : Work Subsumer α) found :=
  .lift stays (fun _ current => current.firm) fun _ _ current firm => ⟨firm, current.queue⟩

/-- A clause that is put into the queue is alive, so its handle is of this epoch. -/
theorem stays_enqueue {handle : Handle} : (enqueue handle).StaysIn (Current base) fun _ => True := by
  unfold enqueue
  have looks : (Engine.look fun engine => engine.arena.live? handle).StaysIn (Firm base)
      fun found => ∀ clause, found = some clause → handle.epoch = base.arena.epoch := by
    refine Engine.stays_look fun engine firm clause live => ?_
    have stored := (Arena.live?_eq_some.1 live).1
    exact (Arena.get?_eq_some.1 stored).1.trans firm.endures.arena.epoch
  refine .bind (stays_lift looks) fun found epoch => ?_
  split
  next => exact .pure trivial
  next clause =>
  split
  next => exact .pure trivial
  next =>
    refine .bind (stays_lift (Engine.stays_markClause fun _ => id)) fun _ _ state current => ?_
    refine .of_done rfl ⟨⟨current.firm, fun other waits => ?_⟩, trivial⟩
    rcases List.mem_append.1 waits with before | new
    · exact current.queue other before
    · exact List.mem_singleton.1 new ▸ epoch clause rfl

/-- No clause waits when the queue is worked through. -/
theorem drain_meets [Realm] {admitted : Breakdown → Prop} {state : Tool Subsumer × Engine}
    {known : Option Implications}
    (strict : ¬ Realm.Lenient) (sound : state.2.Sound) (orderly : state.2.trail.Orderly)
    (knows : Knows known state) :
    drain.Meets admitted state (fun _ after => (Recedes state after ∧ state.2.Endures after.2) ∧
        after.1.own.queue = []) fun _ after => state.2.Endures after.2 := by
  have drains := drain_recedes strict sound orderly knows
  have empties : drain.Ends state (fun _ after => after.1.own.queue = []) fun _ _ => True :=
    Run.Ends.trivial.bind fun _ _ _ => Run.Ends.trivial.bind fun _ _ _ =>
      Run.Ends.trivial.bind fun _ _ _ => Run.Ends.trivial.bind fun _ _ _ =>
      Run.Ends.trivial.bind fun _ _ _ => .of_done rfl rfl
  exact ⟨((drains.ends.and ((made_drain.tracks : Tracks Engine.Endures _) state)).and empties).imp (fun _ _ => id)
    fun _ _ held => held.1.2, fun why stuck => (drains.safe why stuck).elim⟩

end Subsumer

namespace Eliminator

variable {state : Tool Eliminator × Engine} {handle : Handle} {literal : Literal} {pivot i : Nat}
  {gate : Option (Nat × Nat)} {touched : List Nat} {sides : GateSides} {redundant : List Handle}

/-- Elimination is at work inside the tables: the heap ranges over the variables of the
engine, and the handles that wait for subsumption are no older than the epoch. -/
structure Stocked (base : Engine) (state : Tool Eliminator × Engine) : Prop where
  firm : Firm base state.2
  heap : state.1.own.heap.Ranges base.trail.vars.size
  queue : ∀ handle ∈ state.1.own.subsumer.own.queue, handle.epoch = base.arena.epoch

theorem Stocked.self (stocked : Stocked base state) : Stocked state.2 state where
  firm := stocked.firm.self
  heap := stocked.firm.endures.numVars ▸ stocked.heap
  queue handle waits := (stocked.queue handle waits).trans stocked.firm.endures.arena.epoch.symm

theorem Stocked.trans {engine : Engine} (firm : Firm base engine) (stocked : Stocked engine state) :
    Stocked base state where
  firm := firm.trans stocked.firm
  heap := firm.endures.numVars ▸ stocked.heap
  queue handle waits := (stocked.queue handle waits).trans firm.endures.arena.epoch

/-- Every variable of a list is one of the engine. -/
def Names (engine : Engine) (names : List Nat) : Prop :=
  ∀ name ∈ names, 0 < name ∧ name < engine.trail.vars.size

theorem Names.nil : Names base [] := nofun

theorem Names.append {names more : List Nat} (first : Names base names) (second : Names base more) :
    Names base (names ++ more) :=
  fun name member => (List.mem_append.1 member).elim (first name) (second name)

theorem Names.of_owns {literals : List Literal} (owns : ∀ literal ∈ literals, base.Owns literal) :
    Names base (literals.map Literal.var) := by
  intro name member
  obtain ⟨literal, inside, rfl⟩ := List.mem_map.1 member
  exact owns literal inside

theorem stays_lift {α : Type} {body : Run Engine α} {found : α → Prop}
    (stays : body.StaysIn (Firm base) found) :
    Run.StaysIn (Stocked base) (liftM body : Work Eliminator α) found :=
  .lift stays (fun _ stocked => stocked.firm)
    fun _ _ stocked firm => ⟨firm, stocked.heap, stocked.queue⟩

theorem stays_look {α : Type} {question : Engine → α} :
    Run.StaysIn (Stocked base) (liftM (Engine.look question) : Work Eliminator α) fun _ => True :=
  stays_lift (Engine.stays_look fun _ _ => trivial)

theorem stays_own : Run.StaysIn (Stocked base) (Work.own : Work Eliminator Eliminator) fun _ => True :=
  fun _ stocked => .of_done rfl ⟨stocked, trivial⟩

theorem stays_spend {steps : Nat} :
    Run.StaysIn (Stocked base) (Work.spend steps : Work Eliminator Bool) fun _ => True :=
  fun _ stocked => .of_done rfl ⟨⟨stocked.firm, stocked.heap, stocked.queue⟩, trivial⟩

theorem stays_modifyOwn {change : Eliminator → Eliminator}
    (heap : ∀ own, (change own).heap = own.heap)
    (subsumer : ∀ own, (change own).subsumer = own.subsumer) :
    Run.StaysIn (Stocked base) (Work.modifyOwn change) fun _ => True :=
  fun state stocked => .of_done rfl ⟨⟨stocked.firm, (heap state.1.own).symm ▸ stocked.heap,
    (subsumer state.1.own).symm ▸ stocked.queue⟩, trivial⟩

/-- Clauses are put into the queue of the subsumer. -/
theorem stays_enqueue :
    Run.StaysIn (Stocked base) (onSubsumer (Subsumer.enqueue handle)) fun _ => True :=
  .within (fun state => (state.1.own.subsumer, state.2))
    (fun state part => ({ state.1 with own := { state.1.own with subsumer := part.1 } }, part.2))
    (onSubsumer_apply _) (fun _ stocked => ⟨stocked.firm, stocked.queue⟩)
    (fun _ _ stocked current => ⟨current.firm, stocked.heap, current.queue⟩) Subsumer.stays_enqueue

/-! ## Blocked clauses -/

/-- What stays of a side was in it, and what is reported are variables of the engine. -/
def Leaves (base : Engine) (side : Array Handle) (result : Bool × Array Handle × List Nat) : Prop :=
  (∀ handle ∈ result.2.1.toList, handle ∈ side.toList) ∧ Names base result.2.2

/-- Blocked clauses are looked up and removed. -/
theorem stays_removeBlocked {partners : List Handle} (live : ∀ handle ∈ partners, base.Issued handle)
    (remaining : Nat) {side : Array Handle} (few : remaining ≤ side.size)
    (issued : ∀ handle ∈ side.toList, base.Issued handle) (names : Names base touched) :
    (removeBlocked literal partners remaining side touched).StaysIn (Stocked base)
      (Leaves base side) := by
  induction remaining generalizing side touched with
  | zero => exact .pure ⟨fun _ => id, names⟩
  | succ remaining ih =>
    unfold removeBlocked
    have inside : side.size - (remaining + 1) < side.size := by omega
    have here := Array.getElem?_eq_getElem inside
    refine .bind (.access here) fun handle same => ?_
    rw [← same] at here
    have own : base.Issued handle := issued handle (Array.mem_toList_iff.2 (Array.mem_of_getElem? here))
    refine .bind (stays_lift (Engine.stays_clause own)) fun clause owns => ?_
    refine .bind stays_spend fun enough _ => ?_
    split
    swap
    · exact .pure ⟨fun _ => id, names⟩
    have judges : (Engine.look fun engine => engine.arena).StaysIn (Firm base) fun arena =>
        ∃ blocked, Resolution.isBlocked? arena literal.var clause.literals partners = some blocked :=
      Engine.stays_look fun engine firm => (Resolution.exists_isBlocked? _ _ fun handle member =>
        firm.endures.issued (live handle member)).imp fun _ => And.left
    refine .bind (stays_lift judges) ?_
    rintro arena ⟨blocked, judged⟩
    refine .bind (.access judged) fun isBlocked _ => ?_
    split
    · have fewer : remaining ≤ (side.swapIfInBounds (side.size - (remaining + 1))
          (side.size - 1)).pop.size := by
        rw [Array.size_pop, Array.size_swapIfInBounds]
        omega
      have subset : ∀ other ∈ (side.swapIfInBounds (side.size - (remaining + 1))
          (side.size - 1)).pop.toList, other ∈ side.toList := fun other member =>
        (Bag.swapPop_perm here).subset (List.mem_cons_of_mem _ member)
      refine .bind (stays_lift (Engine.stays_removeWithRecord own)) fun _ _ =>
        .bind (stays_lift Engine.stays_count) fun _ _ => ?_
      refine (ih fewer (fun other member => issued other (subset other member))
        (names.append (.of_owns owns))).imp fun result found => ?_
      exact ⟨fun other member => subset other (found.1 other member), found.2⟩
    · exact ih (by omega) issued names

/-- The partners are alive when the blocked clauses of a side are looked for. -/
theorem stays_removeBlockedSide {side : Array Handle} (owns : base.Owns literal)
    (issued : ∀ handle ∈ side.toList, base.Issued handle) (names : Names base touched) :
    (removeBlockedSide literal side touched).StaysIn (Stocked base) (Leaves base side) := by
  intro state stocked
  have names : Names state.2 touched := fun name member =>
    stocked.firm.endures.numVars ▸ names name member
  obtain ⟨listed, isListed⟩ := Engine.exists_occurrences stocked.firm owns.complement
  refine .step (Run.lift_of_done (Run.read_of_eq_some isListed)) (.step rfl ?_)
  have alive : ∀ handle ∈ listed.filter fun handle => (state.2.arena.live? handle).isSome,
      state.2.Issued handle := fun handle member =>
    Engine.issued_of_live? (List.mem_filter.1 member).2
  have removes : (removeBlocked literal _ side.size side touched).StaysIn _ _ :=
    stays_removeBlocked alive side.size le_rfl (fun handle member =>
      stocked.firm.endures.issued (issued handle member)) names
  refine (removes state stocked.self).imp (fun result after held => ?_) fun _ _ held => ?_
  · refine ⟨.trans stocked.firm held.1, held.2.1, fun name member => ?_⟩
    exact stocked.firm.endures.numVars ▸ held.2.2 name member
  · exact .trans stocked.firm held

/-! ## Resolvents -/

/-- A forecast for one clause looks nothing up in vain. -/
theorem stays_forecastAgainst {bound : UInt64} {literals : List Literal}
    (others : List (Handle × Nat)) (issued : ∀ entry ∈ others, base.Issued entry.1)
    {found : Forecast} : (forecastAgainst bound gate pivot i literals others found).StaysIn
      (Stocked base) fun _ => True := by
  induction others generalizing found with
  | nil => exact .pure trivial
  | cons other rest ih =>
    obtain ⟨handle, j⟩ := other
    obtain ⟨own, others⟩ := List.forall_mem_cons.1 issued
    unfold forecastAgainst
    split
    swap
    · exact ih others
    refine .bind (stays_lift (Engine.stays_clause own)) fun other _ => .bind stays_spend fun enough _ => ?_
    split
    swap
    · exact .pure trivial
    refine .bind stays_look fun settings _ => ?_
    split
    · exact ih others
    · exact .pure trivial
    · dsimp only
      split
      · exact .pure trivial
      · exact ih others

/-- Nor does one for all clauses. -/
theorem stays_forecastAll {bound : UInt64} {negative : List (Handle × Nat)}
    (opposite : ∀ entry ∈ negative, base.Issued entry.1) (positive : List (Handle × Nat))
    (issued : ∀ entry ∈ positive, base.Issued entry.1) {found : Forecast} :
    (forecastAll bound gate pivot negative positive found).StaysIn (Stocked base) fun _ => True := by
  induction positive generalizing found with
  | nil => exact .pure trivial
  | cons first rest ih =>
    obtain ⟨own, others⟩ := List.forall_mem_cons.1 issued
    refine .bind (stays_lift (Engine.stays_clause own)) fun clause _ =>
      .bind (stays_forecastAgainst _ opposite) fun found _ => ?_
    split
    · exact .pure trivial
    · exact ih others

/-- Resolvents are over the variables of the engine, like the clauses they are made of. -/
theorem stays_resolveAgainst (own : base.Issued handle) (others : List (Handle × Nat))
    (issued : ∀ entry ∈ others, base.Issued entry.1) (names : Names base touched) :
    (resolveAgainst gate pivot handle i others touched).StaysIn (Stocked base) (Names base) := by
  induction others generalizing touched with
  | nil => exact .pure names
  | cons other rest ih =>
    obtain ⟨partner, j⟩ := other
    obtain ⟨partnerIssued, others⟩ := List.forall_mem_cons.1 issued
    unfold resolveAgainst
    split
    swap
    · exact ih others names
    refine .bind (stays_lift (Engine.stays_clause own)) fun clause owns =>
      .bind (stays_lift (Engine.stays_clause partnerIssued)) fun other ownsOther => ?_
    split
    · exact ih others names
    next resolvent resolved =>
    have more : Names base (touched ++ resolvent.map Literal.var) :=
      names.append (.of_owns fun literal inside =>
        ((Resolution.mem_resolvent? resolved).1 inside).1.elim (owns literal) (ownsOther literal))
    refine .bind (stays_lift Engine.stays_count) fun _ _ =>
      .bind (stays_lift Engine.stays_storeClause) fun stored _ => ?_
    split
    · exact .bind stays_enqueue fun _ _ => ih others more
    · exact .given (ih others more)

/-- Resolvents are stored where there is room. -/
theorem stays_resolveAll {negative : List (Handle × Nat)}
    (opposite : ∀ entry ∈ negative, base.Issued entry.1) (positive : List (Handle × Nat))
    (issued : ∀ entry ∈ positive, base.Issued entry.1) (names : Names base touched) :
    (resolveAll gate pivot negative positive touched).StaysIn (Stocked base) (Names base) := by
  induction positive generalizing touched with
  | nil => exact .pure names
  | cons first rest ih =>
    obtain ⟨own, others⟩ := List.forall_mem_cons.1 issued
    exact .bind (stays_resolveAgainst own _ opposite names) fun _ names => ih others names

/-- One side is removed with records. -/
theorem stays_removeSide (side : List Handle) (issued : ∀ handle ∈ side, base.Issued handle)
    (names : Names base touched) :
    (removeSide literal side touched).StaysIn (Firm base) (Names base) := by
  induction side generalizing touched with
  | nil => exact .pure names
  | cons handle rest ih =>
    obtain ⟨own, others⟩ := List.forall_mem_cons.1 issued
    refine .bind (Engine.stays_clause own) fun clause owns => ?_
    split
    · exact ih others names
    · exact .bind (Engine.stays_removeWithRecord own) fun _ _ =>
        ih others (names.append (.of_owns owns))

/-! ## One variable -/

/-- The clauses with a variable are in the arena. -/
def Collected (base : Engine) (sides : GateSides) : Prop :=
  (∀ handle ∈ sides.positive.toList, base.Issued handle) ∧
    ∀ handle ∈ sides.negative.toList, base.Issued handle

theorem Collected.zipIdx {handles : List Handle} (issued : ∀ handle ∈ handles, base.Issued handle) :
    ∀ entry ∈ handles.zipIdx, base.Issued entry.1 :=
  fun _ member => issued _ (List.fst_mem_of_mem_zipIdx member)

/-- The clauses of a variable are replaced. -/
theorem stays_replaceByResolvents (present : 0 < pivot) (inside : pivot < base.trail.vars.size)
    (collected : Collected base sides) (others : ∀ handle ∈ redundant, base.Issued handle)
    (names : Names base touched) :
    (replaceByResolvents pivot sides redundant touched).StaysIn (Stocked base) (Names base) := by
  refine .bind (stays_resolveAll (Collected.zipIdx collected.2) _ (Collected.zipIdx collected.1) names)
    fun _ names => ?_
  refine .bind (stays_lift (stays_removeSide _ collected.1 names)) fun _ names => ?_
  refine .bind (stays_lift (stays_removeSide _ collected.2 names)) fun touched names => ?_
  refine .bind (.forM fun handle member => stays_lift (Engine.stays_removeIfLive (others handle member)))
    fun _ _ => ?_
  refine .bind (stays_lift (Engine.stays_handle_eliminated inside)) fun _ _ =>
    .bind (stays_lift Engine.stays_count) fun _ _ => ?_
  have reports : Names base (sortedNumbers (touched ++ [pivot])) := by
    have pivotIs : Names base [pivot] := fun name member =>
      List.mem_singleton.1 member ▸ ⟨present, inside⟩
    exact fun name member => names.append pivotIs name (mem_sortedNumbers.1 member)
  split
  · exact .bind (stays_lift Engine.stays_count) fun _ _ => .pure reports
  · exact .given (.pure reports)

/-- A decision is made and carried out. -/
theorem stays_decideElimination (present : 0 < pivot) (inside : pivot < base.trail.vars.size)
    (collected : Collected base sides) (others : ∀ handle ∈ redundant, base.Issued handle)
    (names : Names base touched) :
    (decideElimination pivot sides redundant touched).StaysIn (Stocked base) (Names base) := by
  have forecasts : (forecast sides.positive.toList sides.negative.toList pivot sides.gate).StaysIn
      (Stocked base) fun _ => True := .bind stays_look fun _ _ =>
    stays_forecastAll (Collected.zipIdx collected.2) _ (Collected.zipIdx collected.1)
  refine .bind forecasts fun found _ => ?_
  split
  · exact .pure names
  refine .bind stays_look fun settings _ => .bind stays_own fun own _ => ?_
  dsimp only
  split
  · exact .pure names
  · exact .bind (stays_modifyOwn (fun _ => rfl) fun _ => rfl) fun _ _ =>
      stays_replaceByResolvents present inside collected others names

/-- A gate is looked for among stored clauses. -/
theorem stays_searchGate {positive negative : Array Handle}
    (issued : ∀ handle ∈ positive.toList, base.Issued handle)
    (opposite : ∀ handle ∈ negative.toList, base.Issued handle) :
    (searchGate pivot positive negative).StaysIn (Firm base) (Collected base) := by
  refine .read fun engine firm => ?_
  obtain ⟨sides, found⟩ : ∃ sides, Gate.search? engine.arena pivot positive negative = some sides :=
    Gate.exists_search? (fun handle member => firm.endures.issued (issued handle member))
      fun handle member => firm.endures.issued (opposite handle member)
  obtain ⟨permPositive, permNegative⟩ := Gate.search?_perm found
  exact ⟨sides, found, fun handle member => issued handle (permPositive.subset member),
    fun handle member => opposite handle (permNegative.subset member)⟩

theorem owns_ofVar (present : 0 < pivot) (inside : pivot < base.trail.vars.size)
    (small : 2 * pivot + 1 < UInt32.size) : base.Owns (Literal.ofVar pivot true) := by
  unfold Engine.Owns
  rw [Literal.var_ofVar present small]
  exact ⟨present, inside⟩

/-- The rest is decided when blocked clauses are gone. -/
theorem stays_afterBlocked (present : 0 < pivot) (inside : pivot < base.trail.vars.size)
    (small : 2 * pivot + 1 < UInt32.size) (collected : Collected base sides)
    (others : ∀ handle ∈ redundant, base.Issued handle) :
    (afterBlocked pivot sides redundant).StaysIn (Stocked base) (Names base) := by
  have owns := owns_ofVar present inside small
  refine .bind (stays_removeBlockedSide owns collected.1 .nil) ?_
  rintro ⟨enough, positive, touched⟩ ⟨left, names⟩
  dsimp only at left names ⊢
  split
  swap
  · exact .pure names
  refine .bind (stays_removeBlockedSide owns.complement collected.2 names) ?_
  rintro ⟨enough, negative, touched⟩ ⟨leftNegative, names⟩
  dsimp only at leftNegative names ⊢
  have issued : ∀ handle ∈ positive.toList, base.Issued handle :=
    fun handle member => collected.1 handle (left handle member)
  have opposite : ∀ handle ∈ negative.toList, base.Issued handle :=
    fun handle member => collected.2 handle (leftNegative handle member)
  split
  swap
  · exact .pure names
  split
  · exact .bind (stays_lift (stays_searchGate issued opposite)) fun _ collected =>
      stays_decideElimination present inside collected others names
  · exact .given (stays_decideElimination present inside ⟨issued, opposite⟩ others names)

/-- The clauses with a literal are found, and they are in the arena. -/
theorem exists_clausesWith {engine : Engine} (firm : Firm base engine) (owns : base.Owns literal) :
    ∃ found, clausesWith literal engine = .done found engine ∧
      (∀ handle ∈ found.1, engine.Issued handle) ∧ ∀ handle ∈ found.2, engine.Issued handle := by
  obtain ⟨listed, isListed⟩ := Engine.exists_occurrences firm owns
  let found := (listed.filter fun handle => engine.arena.holds handle literal).partition fun handle =>
    ((engine.arena.get? handle).map fun c => !c.isRedundant).getD false
  have reads : Engine.occurrences literal engine = .done listed engine :=
    Run.read_of_eq_some isListed
  have issued : ∀ handle ∈ listed.filter fun handle => engine.arena.holds handle literal,
      engine.Issued handle := fun handle member =>
    Engine.issued_of_holds (List.mem_filter.1 member).2
  refine ⟨found, ?_, fun handle member => issued handle ?_, fun handle member => issued handle ?_⟩
  · rw [clausesWith, Run.bind_of_done reads]
    rfl
  · simp only [found, List.partition_eq_filter_filter] at member
    exact (List.mem_filter.1 member).1
  · simp only [found, List.partition_eq_filter_filter] at member
    exact (List.mem_filter.1 member).1

/-- Whatever becomes of a variable, nothing outside the tables is looked for. -/
theorem stays_eliminate (present : 0 < pivot) (inside : pivot < base.trail.vars.size)
    (small : 2 * pivot + 1 < UInt32.size) :
    (eliminate pivot).StaysIn (Stocked base) (Names base) := by
  intro state stocked
  have owns := owns_ofVar present inside small
  obtain ⟨⟨positive, positiveRedundant⟩, foundPositive, own, ownRedundant⟩ :=
    exists_clausesWith stocked.firm owns
  obtain ⟨⟨negative, negativeRedundant⟩, foundNegative, others, othersRedundant⟩ :=
    exists_clausesWith stocked.firm owns.complement
  have insideNow : pivot < state.2.trail.vars.size := stocked.firm.endures.numVars ▸ inside
  have redundant : ∀ handle ∈ positiveRedundant ++ negativeRedundant, state.2.Issued handle :=
    fun handle member => (List.mem_append.1 member).elim (ownRedundant handle)
      (othersRedundant handle)
  have decides : ∀ sides, Collected state.2 sides → ∀ settings : Settings,
      (if sides.gate.isNone && settings.skips positive.length negative.length then pure []
        else if settings.blockedDuringElimination then
          afterBlocked pivot sides (positiveRedundant ++ negativeRedundant)
        else decideElimination pivot sides (positiveRedundant ++ negativeRedundant) [] :
        Work Eliminator (List Nat)).StaysIn (Stocked state.2) (Names state.2) := by
    intro sides collected settings
    split
    · exact .pure .nil
    split
    · exact stays_afterBlocked present insideNow small collected redundant
    · exact stays_decideElimination present insideNow collected redundant .nil
  unfold eliminate
  refine .step (Run.lift_of_done foundPositive) (.step (Run.lift_of_done foundNegative) ?_)
  refine .step rfl ?_
  dsimp only
  have collected : Collected state.2 ⟨positive.toArray, negative.toArray, none⟩ := ⟨own, others⟩
  have back : ∀ {body : Work Eliminator (List Nat)}, body.StaysIn (Stocked state.2) (Names state.2) →
      body.Lands state (fun names after => Stocked base after ∧ Names base names)
        fun _ after => Stocked base after := fun stays =>
    (stays state stocked.self).imp (fun names after held => ⟨.trans stocked.firm held.1,
      fun name member => stocked.firm.endures.numVars ▸ held.2 name member⟩)
      fun _ _ => .trans stocked.firm
  refine back (.ite (.bind stays_spend fun enough _ => ?_) (.given ?_))
  all_goals
    refine .ite (.ite ?_ (.given (decides _ collected _))) (.pure .nil)
    exact .bind (stays_lift (stays_searchGate collected.1 collected.2)) fun sides collected =>
      decides sides collected _

/-! ## Turns -/

/-- Work on the heap stays within its tables. -/
theorem stays_onHeap {α : Type} {body : Occurrences → Run VarHeap α} {found : α → Prop}
    (small : base.trail.vars.size ≤ 0x80000000)
    (stays : ∀ index, VarHeap.Compares index base.trail.vars.size →
      (body index).StaysIn (VarHeap.Ranges base.trail.vars.size) found) :
    (onHeap body).StaysIn (Stocked base) found := by
  intro state stocked
  have compares : VarHeap.Compares state.2.index base.trail.vars.size := by
    rw [← stocked.firm.endures.numVars] at small ⊢
    exact VarHeap.compares_of_roomy stocked.firm.toRoomy small
  refine .within (onHeap_apply body state) ((stays _ compares _ stocked.heap).imp ?_ ?_)
  · exact fun _ _ held => ⟨⟨stocked.firm, held.1, stocked.queue⟩, held.2⟩
  · exact fun _ _ ranges => ⟨stocked.firm, ranges, stocked.queue⟩

/-- A variable is offered to the heap. -/
theorem stays_offer {name : Nat} (small : base.trail.vars.size ≤ 0x80000000) (present : 0 < name)
    (inside : name < base.trail.vars.size) : (offer name).StaysIn (Stocked base) fun _ => True := by
  refine .bind (stays_lift (Engine.stays_isRemovable inside)) fun removable _ => .ite ?_ (.pure trivial)
  exact stays_onHeap small fun _ compares => VarHeap.stays_insert compares present inside

/-- What is left of elimination even if the formula is refuted on the way. -/
structure Outlasts (base : Engine) (state : Tool Eliminator × Engine) : Prop where
  endures : base.Endures state.2
  heap : state.1.own.heap.Sized base.trail.vars.size

theorem Stocked.outlasts (stocked : Stocked base state) : Outlasts base state :=
  ⟨stocked.firm.endures, stocked.heap.sized⟩

theorem Stocked.outlasts_of {after : Tool Eliminator × Engine} (stocked : Stocked base state)
    (endures : state.2.Endures after.2) (heap : after.1.own.heap = state.1.own.heap) :
    Outlasts base after := ⟨stocked.firm.endures.trans endures, heap ▸ stocked.heap.sized⟩

section Turns

variable [Realm]

/-- Elimination is at work on a sound engine and inside its tables. -/
structure Secure (base : Engine) (state : Tool Eliminator × Engine) : Prop where
  working : Working state
  stocked : Stocked base state

theorem Secure.small (secure : Secure base state) : base.trail.vars.size ≤ 0x80000000 :=
  secure.stocked.firm.endures.numVars ▸ secure.working.sound.trail.small

/-- What a computation on a sound engine leaves is as good as its tables. -/
theorem Secure.lands {α : Type} {body : Work Eliminator α} {found : α → Prop}
    {good : α → Tool Eliminator × Engine → Prop} (secure : Secure base state)
    (stays : body.StaysIn (Stocked base) found)
    (reaches : body.Reaches state fun value after => Working after ∧ good value after) :
    body.Lands state (fun value after => Secure base after ∧ found value ∧ good value after)
      fun _ after => Outlasts base after :=
  ((stays state secure.stocked).and_ends reaches.ends).imp
    (fun _ _ held => ⟨⟨held.2.1, held.1.1⟩, held.1.2, held.2.2⟩) fun _ _ held => held.1.outlasts

/-- A sound engine has room, so the tables are as good as they were. -/
theorem Secure.of_working {after : Tool Eliminator × Engine} (secure : Secure base state)
    (working : Working after) (endures : state.2.Endures after.2)
    (heap : after.1.own.heap = state.1.own.heap)
    (queue : ∀ handle ∈ after.1.own.subsumer.own.queue,
      handle ∈ state.1.own.subsumer.own.queue) : Secure base after where
  working := working
  stocked := {
    firm := ⟨working.sound.roomy, secure.stocked.firm.endures.trans endures,
      endures.ranged secure.stocked.firm.ranged⟩
    heap := heap ▸ secure.stocked.heap
    queue := fun handle waits => secure.stocked.queue handle (queue handle waits) }

/-- After the root literals were applied all is as it should be. -/
theorem propagate_lands (secure : Secure base state) :
    (liftM Engine.propagateUnits : Work Eliminator Unit).Lands state
      (fun _ after => Secure base after) fun _ after => Outlasts base after := by
  refine ((Engine.propagateUnits_meets secure.working.sound secure.working.orderly).lift.and_ends
    (propagate_reaches secure.working).ends).imp ?_ ?_
  · rintro _ after ⟨⟨own, _, endures⟩, working⟩
    exact secure.of_working working endures (own ▸ rfl) (own ▸ fun _ => id)
  · rintro _ after ⟨⟨own, endures⟩, _⟩
    exact secure.stocked.outlasts_of endures (own ▸ rfl)

/-- The subsumer finds every clause of its queue. -/
theorem drain_lands (strict : ¬ Realm.Lenient) (secure : Secure base state) :
    (onSubsumer Subsumer.drain).Lands state (fun _ after => Secure base after)
      fun _ after => Outlasts base after := by
  have knows : Subsumer.Knows none (state.1.own.subsumer, state.2) :=
    ⟨⟨secure.working.ready.plain, nofun, nofun⟩, nofun⟩
  have drained : (onSubsumer Subsumer.drain).Lands state
      (fun _ after => (state.2.Endures after.2 ∧ after.1.own.heap = state.1.own.heap) ∧
        after.1.own.subsumer.own.queue = [])
      fun _ after => state.2.Endures after.2 ∧ after.1.own.heap = state.1.own.heap :=
    .within (onSubsumer_apply _ state) ((Subsumer.drain_meets strict secure.working.sound
      secure.working.orderly knows).imp (fun _ _ held => ⟨⟨held.1.2, rfl⟩, held.2⟩)
      fun _ _ endures => ⟨endures, rfl⟩)
  refine (drained.and_ends (drain_reaches strict secure.working).ends).imp ?_ ?_
  · rintro _ after ⟨⟨⟨endures, heap⟩, empty⟩, working⟩
    exact secure.of_working working endures heap (empty ▸ nofun)
  · rintro _ after ⟨⟨endures, heap⟩, _⟩
    exact secure.stocked.outlasts_of endures heap

/-- A turn finds everything where it looks for it. -/
theorem step_lands (strict : ¬ Realm.Lenient) (secure : Secure base state) :
    step.Lands state (fun _ after => Secure base after) fun _ after => Outlasts base after := by
  unfold step
  have selects : (onHeap VarHeap.select).Reaches state _ :=
    ⟨select_ends secure.working, onHeap_keepsFuel VarHeap.select_keepsFuel⟩
  refine (secure.lands (stays_onHeap secure.small fun _ => VarHeap.stays_select) selects).bind ?_
  rintro selected taken ⟨secure, names, _⟩
  cases selected with
  | none => exact .pure secure
  | some name =>
  obtain ⟨positive, inside⟩ := names name rfl
  have spends : (Work.spend 1).Reaches taken fun _ after => Working after ∧ True :=
    ⟨.of_done rfl ⟨⟨secure.working.sound, secure.working.clean, secure.working.orderly,
      secure.working.ready.of_own rfl⟩, trivial⟩, fuelless_spend taken⟩
  refine (secure.lands stays_spend spends).bind fun enough paid ⟨secure, _⟩ => ?_
  split
  swap
  · exact .pure secure
  obtain ⟨removable, found⟩ := Engine.exists_isRemovable?
    (secure.stocked.firm.endures.numVars ▸ inside)
  refine .step (Run.lift_of_done (Run.read_of_eq_some found)) ?_
  split
  swap
  · exact .pure secure
  next yes =>
  rw [yes] at found
  have removable := Engine.removable_of_isRemovable? found
  have works : Works .removal (eliminate name) paid fun touched after =>
      Ready after.1 ∧ True :=
    (worksOn_eliminate removable positive .refl).works.imp
      fun _ _ ⟨⟨held, _⟩, _⟩ => ⟨held.ready secure.working.ready, trivial⟩
  have attempts := secure.working.reaches works (fuelless_eliminate paid)
  refine (secure.lands (stays_eliminate positive inside (removable.small secure.working.sound))
    attempts).bind fun touched _ ⟨secure, names, _⟩ => ?_
  split
  · exact .pure secure
  refine (propagate_lands secure).bind fun _ _ secure => ?_
  refine (drain_lands strict secure).bind fun _ left secure => ?_
  have others : ∀ other ∈ touched.filter (· != name), 0 < other ∧ other < base.trail.vars.size :=
    fun other member => names other (List.mem_filter.1 member).1
  have offers := offers_reach (fun other member => (others other member).1) secure.working
  refine (secure.lands (.forM fun other member => stays_offer secure.small (others other member).1
    (others other member).2) (offers.imp (fun _ _ working => ⟨working, trivial⟩) fun _ _ => id)).bind ?_
  exact fun _ _ held => .pure held.1

/-- Elimination comes to its end. -/
theorem eliminateAll_lands (strict : ¬ Realm.Lenient) (secure : Secure base state) :
    eliminateAll.Lands state (fun _ after => Secure base after) fun _ after => Outlasts base after :=
  ⟨loop_ends (fun _ secure => (step_lands strict secure).ends) _ secure,
    loop_safe (fun _ secure => (step_lands strict secure).ends)
      (fun _ secure => (step_lands strict secure).safe) (fun _ _ _ _ _ => nofun) _ rfl secure⟩

/-! ## The whole run -/

/-- What elimination needs to begin inside the tables. -/
structure Equipped (state : Tool Eliminator × Engine) : Prop where
  ranged : state.2.Ranged
  heap : state.1.own.heap.Sized state.2.trail.vars.size
  queue : ∀ handle ∈ state.1.own.subsumer.own.queue, handle.epoch = state.2.arena.epoch

/-- Every variable has a place in the heap. -/
theorem fill_lands (equipped : Equipped state) (sound : state.2.Sound)
    (clean : state.2.index.dirty = #[]) (orderly : state.2.trail.Orderly)
    (plain : state.1.own.subsumer.own.graph = none) :
    fill.Lands state (fun _ after => Secure state.2 after) fun _ after => Outlasts state.2 after := by
  suffices fills : fill.Lands state (fun _ after => Stocked state.2 after)
      fun _ after => Outlasts state.2 after from
    (fills.and_ends (fill_reaches sound clean orderly plain).ends).imp
      (fun _ _ held => ⟨held.2, held.1⟩) fun _ _ => And.left
  unfold fill
  refine ((Engine.propagateUnits_meets sound orderly).lift.imp (fun _ _ => id)
    fun _ _ held => ⟨held.2, held.1 ▸ equipped.heap⟩).bind ?_
  rintro _ ⟨tool, engine⟩ ⟨same, leads, endures⟩
  dsimp only at leads endures same
  subst same
  have sound := leads.sound sound
  have count : engine.numVars + 1 = state.2.trail.vars.size := by
    rw [← endures.numVars]
    exact Nat.sub_add_cancel sound.trail.nonempty
  have sized : (state.1.own.heap.expand engine.numVars).Sized state.2.trail.vars.size :=
    count ▸ (count ▸ equipped.heap).expand
  obtain ⟨heap, cleared⟩ : ∃ heap, (state.1.own.heap.expand engine.numVars).clear = some heap :=
    VarHeap.exists_clear (by rw [sized.places]; omega)
  refine .step rfl ?_
  have empties : (Run.update fun heap => (VarHeap.expand heap engine.numVars).clear).Lands
      state.1.own.heap (fun _ heap => heap.Ranges state.2.trail.vars.size) fun _ _ => False :=
    .of_done (Run.update_of_eq_some cleared) (sized.ranges_clear cleared)
  have emptied : (onHeap fun _ => Run.update fun heap =>
      (VarHeap.expand heap engine.numVars).clear).Lands (state.1, engine)
        (fun _ after => Stocked state.2 after) fun _ after => Outlasts state.2 after :=
    .within (onHeap_apply _ _) (empties.imp (fun _ _ ranges =>
      ⟨⟨sound.roomy, endures, endures.ranged equipped.ranged⟩, ranges, equipped.queue⟩)
      fun _ _ => False.elim)
  refine emptied.bind fun _ middle stocked => ?_
  have small : state.2.trail.vars.size ≤ 0x80000000 := endures.numVars ▸ sound.trail.small
  have offers : Run.StaysIn (Stocked state.2) (do
      Work.modifyOwn fun eliminator => { eliminator with grown := 0 }
      (List.range' 1 engine.numVars).forM offer : Work Eliminator Unit) fun _ => True := by
    refine .bind (stays_modifyOwn (fun _ => rfl) fun _ => rfl) fun _ _ => .forM fun name member => ?_
    have among := List.mem_range'_1.1 member
    exact stays_offer small among.1 (by omega)
  exact (offers middle stocked).imp (fun _ _ => And.left) fun _ _ => Stocked.outlasts

/-- A run of elimination makes no access outside a table. -/
theorem run_lands (strict : ¬ Realm.Lenient) (equipped : Equipped state) (sound : state.2.Sound)
    (clean : state.2.index.dirty = #[]) (orderly : state.2.trail.Orderly)
    (plain : state.1.own.subsumer.own.graph = none) :
    run.Lands state (fun _ after => Stocked state.2 after)
      fun cause after => cause.isUnsat = true ∧ Outlasts state.2 after := by
  suffices runs : run.Lands state (fun _ after => Stocked state.2 after)
      fun _ after => Outlasts state.2 after from
    (runs.and_ends (works_run plain sound)).imp (fun _ _ => And.left) fun _ _ held =>
      ⟨held.2.reason.elim And.left fun lenient => absurd lenient.1 strict, held.1⟩
  rw [run_eq]
  refine (fill_lands equipped sound clean orderly plain).bind fun _ filled secure => ?_
  refine (eliminateAll_lands strict secure).bind fun _ last secure => ?_
  have clears : Run.StaysIn (Stocked state.2) (onHeap fun _ => Run.update VarHeap.clear)
      fun _ => True := by
    refine stays_onHeap secure.small fun _ _ => .update fun heap ranges => ?_
    obtain ⟨after, cleared⟩ : ∃ after, heap.clear = some after :=
      VarHeap.exists_clear (ranges.places ▸ Nat.zero_lt_of_lt ranges.size_lt)
    exact ⟨after, cleared, ranges.sized.ranges_clear cleared⟩
  exact (clears last secure.stocked).imp (fun _ _ => And.left) fun _ _ => Stocked.outlasts

/-- Elimination can lack nothing but names, and its tables are good for the next run. -/
theorem process_fares (strict : ¬ Realm.Lenient) (equipped : Equipped state) (sound : state.2.Sound)
    (clean : state.2.index.dirty = #[]) (orderly : state.2.trail.Orderly) :
    process.Fares state (fun status after => state.2.Endures after.2 ∧
      after.1.own.heap.Sized state.2.trail.vars.size ∧ (status ≠ .unsat →
        ∀ handle ∈ after.1.own.subsumer.own.queue, handle.epoch = state.2.arena.epoch))
      fun _ _ => False := by
  refine (Work.process_meets (fun own => own.heap.Sized state.2.trail.vars.size ∧
    ∀ handle ∈ own.subsumer.own.queue, handle.epoch = state.2.arena.epoch)
    (fun own => own.heap.Sized state.2.trail.vars.size) fun tool own => ?_).imp ?_ fun _ _ => id
  · refine .step rfl (.step rfl ((Run.Meets.fares (run_lands strict ?_ (by exact sound)
      (by exact clean) (by exact orderly) rfl) (run_keepsFuel strict (by exact sound)
      (by exact clean) (by exact orderly) rfl)).imp ?_ ?_))
    · exact ⟨equipped.ranged, own ▸ equipped.heap, own ▸ equipped.queue⟩
    · exact fun _ _ held => ⟨held.outlasts.endures, held.outlasts.heap, held.queue⟩
    · exact fun _ _ held => ⟨held.1, held.2.endures, held.2.heap⟩
  · rintro status after ⟨endures, ⟨sized, current⟩ | ⟨rfl, sized⟩⟩
    · exact ⟨endures, sized, fun _ => current⟩
    · exact ⟨endures, sized, fun isOpen => absurd rfl isOpen⟩

end Turns

end Eliminator

end CnfSimplifier
