import CnfSimplifier.Proofs.BlockedSides

/-!
# The variables that elimination reports

An attempt to eliminate a variable answers with the variables of the clauses that it
stored and of the irredundant ones that it removed. A variable that is not among them is in
the same clauses as before, but for redundant clauses of the eliminated variable: those go
without being reported, so their variables can lose occurrences that nobody hears of.

If nothing is reported, nothing has happened.
-/
namespace CnfSimplifier

namespace Arena

variable {arena after : Arena} {handle : Handle} {literal : Literal}

/-- A new clause is in no list of a literal that it does not have. -/
theorem holds_insert {literals : List Literal} (absent : literal ∉ literals) (redundant : Bool) :
    (arena.insert literals redundant).2.holds handle literal = arena.holds handle literal := by
  have isNew : (Clause.ofLiterals literals redundant).contains literal = false := by
    simpa [Clause.contains, Clause.ofLiterals, mem_sortedLiterals] using absent
  have found : (arena.insert literals redundant).2.get? handle = if handle.epoch = arena.epoch then
      (arena.slots.push (Clause.ofLiterals literals redundant))[handle.index]? else none := rfl
  unfold holds
  rw [found, get?]
  split_ifs
  swap
  · rfl
  rw [Array.getElem?_push]
  split_ifs with last
  · simp [last, isNew]
  · rfl

/-- The same clauses have the same literals. -/
theorem SameClauses.holds_eq (same : SameClauses arena after) :
    after.holds handle literal = arena.holds handle literal := by
  have back : ∀ {first second : Arena}, (∀ clause, first.live? handle = some clause →
      ∃ copy, second.live? handle = some copy ∧ copy.literals = clause.literals) →
      first.holds handle literal = true → second.holds handle literal = true := by
    intro first second lives holds
    obtain ⟨clause, live, inside⟩ := holds_iff.1 holds
    obtain ⟨copy, liveCopy, literals⟩ := lives clause live
    exact holds_iff.2 ⟨copy, liveCopy, literals ▸ inside⟩
  refine Bool.eq_iff_iff.2 ⟨back fun clause live => ?_, back fun clause live => ?_⟩
  · obtain ⟨found, alive⟩ := live?_eq_some.1 live
    obtain ⟨current, inSlot⟩ := get?_eq_some.1 found
    obtain ⟨old, foundOld, literals, dead, _⟩ := same.slots _ clause inSlot
    exact ⟨old, live?_eq_some.2 ⟨get?_eq_some.2 ⟨current.trans same.epoch, foundOld⟩,
      dead.symm.trans alive⟩, literals.symm⟩
  · obtain ⟨copy, liveCopy, literals, _⟩ := same.live?_back live
    exact ⟨copy, liveCopy, literals⟩

end Arena

/-- Where a literal is in the same clauses, it is counted the same. -/
theorem Filed.count?_eq {room : Nat} {index after : Occurrences} {arena arenaAfter : Arena}
    {literal : Literal} (filed : Filed room index arena) (filedAfter : Filed room after arenaAfter)
    (same : ∀ handle, arenaAfter.holds handle literal = arena.holds handle literal) :
    after.count? literal = index.count? literal := by
  have counts : arenaAfter.contents.countP (literal ∈ ·) = arena.contents.countP (literal ∈ ·) := by
    rw [← Arena.length_filter_handles filed.space.le]
    refine (Arena.length_of_holds filedAfter.space.le
      ((Arena.nodup_handles filed.space.le).filter _) fun handle => ?_).symm
    rw [same, List.mem_filter, Arena.mem_handles filed.space.le]
    refine ⟨And.right, fun holds => ⟨?_, holds⟩⟩
    obtain ⟨clause, live, _⟩ := Arena.holds_iff.1 holds
    exact ⟨clause, live⟩
  unfold Occurrences.count? Occurrences.entry?
  by_cases inside : literal.index < room
  · have before : literal.index < index.entries.size := filed.room ▸ inside
    have now : literal.index < after.entries.size := filedAfter.room ▸ inside
    have found : index.entry? literal = some index.entries[literal.index] :=
      Array.getElem?_eq_getElem before
    have foundAfter : after.entry? literal = some after.entries[literal.index] :=
      Array.getElem?_eq_getElem now
    rw [Array.getElem?_eq_getElem before, Array.getElem?_eq_getElem now, Option.map_some,
      Option.map_some, filed.tallied.count _ _ found, filedAfter.tallied.count _ _ foundAfter,
      counts]
  · rw [Array.getElem?_eq_none (by rw [filedAfter.room]; omega),
      Array.getElem?_eq_none (by rw [filed.room]; omega)]

namespace Engine

variable {base engine after : Engine} {literal : Literal} {names more : List Nat}
  {handle : Handle} {clause : Clause} {removed : List Handle}

/-! ## Away from the reported variables -/

/-- The lists fit the clauses, and the literals of variables that are not named are in the
same clauses as before. -/
structure Confines (base : Engine) (names : List Nat) (engine : Engine) : Prop where
  filed : Filed (2 * base.trail.vars.size) engine.index engine.arena
  same : ∀ literal, literal.var ∉ names →
    ∀ handle, engine.arena.holds handle literal = base.arena.holds handle literal

namespace Confines

/-- More variables may be named. -/
theorem mono (confines : base.Confines names engine) (subset : names ⊆ more) :
    base.Confines more engine :=
  ⟨confines.filed, fun literal absent => confines.same literal fun named => absent (subset named)⟩

theorem of_same (confines : base.Confines names engine)
    (arena : after.arena = engine.arena) (index : after.index = engine.index) :
    base.Confines names after :=
  ⟨arena ▸ index ▸ confines.filed, arena ▸ confines.same⟩

/-- Clauses went whose variables are named. -/
theorem drops (confines : base.Confines names engine) (drops : Drops removed engine after)
    (subset : names ⊆ more) (named : ∀ handle ∈ removed, ∀ clause,
      engine.arena.live? handle = some clause → ∀ other ∈ clause.literals, other.var ∈ more) :
    base.Confines more after where
  filed := drops.filed _ confines.filed
  same literal absent handle := by
    rw [← confines.same literal (fun inNames => absent (subset inNames)) handle, Bool.eq_iff_iff,
      Arena.holds_iff, Arena.holds_iff]
    constructor
    · rintro ⟨clause, live, inside⟩
      exact ⟨clause, (drops.live?_eq_some.1 live).1, inside⟩
    · rintro ⟨clause, live, inside⟩
      refine ⟨clause, drops.live?_eq_some.2 ⟨live, fun isGone => ?_⟩, inside⟩
      exact absent (named handle isGone clause live literal inside)

end Confines

/-- Of the given clauses some go. -/
theorem removeAllLive_drops (handles : List Handle) :
    (handles.forM removeIfLive).Ends engine (fun _ after => ∃ removed, Drops removed engine after ∧
      ∀ handle ∈ removed, handle ∈ handles) fun _ _ => True := by
  induction handles generalizing engine with
  | nil => exact .pure ⟨[], .refl, by simp⟩
  | cons handle rest ih =>
    have goes : (removeIfLive handle).Ends engine (fun _ after => ∃ removed,
        Drops removed engine after ∧ ∀ other ∈ removed, other = handle) fun _ _ => True := by
      unfold removeIfLive
      refine looks_clause.bind fun clause found => ?_
      split
      next => exact .pure ⟨[], .refl, by simp⟩
      next alive =>
        have live := Arena.live?_of_alive found alive
        exact (removeClause_drops live).imp (fun _ after drops => ⟨[handle], drops, by simp⟩)
          fun _ _ _ => trivial
    refine goes.bind fun _ middle ⟨removed, drops, only⟩ => ?_
    refine ih.imp ?_ fun _ _ => id
    rintro _ after ⟨more, further, among⟩
    exact ⟨removed ++ more, drops.trans further, List.forall_mem_append.2
      ⟨fun other member => only other member ▸ List.mem_cons_self,
        fun other member => List.mem_cons_of_mem _ (among other member)⟩⟩

/-- A stored clause concerns its own variables. -/
theorem addClause_confines {literals : List Literal} {redundant : Bool}
    (confines : base.Confines names engine)
    (subset : names ⊆ more) (named : ∀ other ∈ literals, other.var ∈ more) :
    (addClause literals redundant).Ends engine (fun _ after => base.Confines more after)
      fun _ _ => True := by
  have unchanged : base.Confines more engine := confines.mono subset
  unfold addClause storeClause
  refine .step rfl ?_
  split
  · exact .fail trivial
  dsimp only
  split
  · exact .pure unchanged
  refine Run.Looks.access.bind fun satisfied _ => ?_
  split
  · exact .pure unchanged
  refine Run.Looks.access.bind fun remaining opened => ?_
  match remaining, opened with
  | [], _ => exact .fail trivial
  | [unit], _ =>
    exact .bind assignUnit_keepsFiles fun _ after ⟨arena, index⟩ =>
      .pure (unchanged.of_same arena index)
  | first :: second :: rest, opened =>
    dsimp only
    rw [if_pos (Bool.true_or _)]
    refine .step rfl (insertClause_files (by exact unchanged.filed) fun index filed _ =>
      .step rfl (.pure ⟨filed, fun literal absent handle => ?_⟩))
    refine (Arena.holds_insert (fun inside => absent (named literal ?_)) redundant).trans
      (unchanged.same literal absent handle)
    exact mem_sortedLiterals.1 ((openLiterals?_spec opened).1.subset inside)

end Engine

namespace Eliminator

open Engine

variable {base : Engine} {literal own : Literal} {state : Tool Eliminator × Engine}
  {gate : Option (Nat × Nat)} {pivot i : Nat} {handle : Handle} {touched : List Nat}

/-- Waiting in the queue is a mark on a clause. -/
theorem enqueue_confines (confines : base.Confines touched state.2) :
    (onSubsumer (Subsumer.enqueue handle)).Ends state
      (fun _ after => base.Confines touched after.2) fun _ _ => True := by
  have enqueued : (Subsumer.enqueue handle).Ends (state.1.own.subsumer, state.2)
      (fun _ after => base.Confines touched after.2) fun _ _ => False := by
    unfold Subsumer.enqueue
    refine .step rfl ?_
    split
    · exact .pure confines
    split
    · exact .pure confines
    refine .step rfl (.of_done rfl ?_)
    dsimp only
    split
    next arena marked =>
      have same := Arena.sameClauses_mark (by exact fun _ => rfl) (by exact fun _ => rfl) marked
      have counted := confines.filed.counted.mark (by exact fun _ => rfl) (by exact fun _ => rfl) marked
      exact ⟨confines.filed.of_sameClauses same counted,
        fun literal absent handle => same.holds_eq.trans (confines.same literal absent handle)⟩
    next => exact confines
  exact .within (onSubsumer_apply _ state) (enqueued.imp (fun _ _ confines => confines) fun _ _ no => no.elim)

/-! ## Storing resolvents and removing sides -/

/-- Resolving one clause touches only what is told. -/
theorem resolveAgainst_confines (negative : List (Handle × Nat))
    (confines : base.Confines touched state.2) :
    (resolveAgainst gate pivot handle i negative touched).Ends state
      (fun touched after => base.Confines touched after.2) fun _ _ => True := by
  induction negative generalizing state touched with
  | nil => exact .pure confines
  | cons entry rest ih =>
    obtain ⟨partner, j⟩ := entry
    unfold resolveAgainst
    split
    swap
    · exact ih confines
    refine Run.Looks.bind Engine.looks_clause.lift fun clause _ => ?_
    refine Run.Looks.bind Engine.looks_clause.lift fun other _ => ?_
    split
    · exact ih confines
    next resolvent _ =>
    refine .step rfl ?_
    have stores : (Engine.addClause resolvent false).Ends { state.2 with
        tally := { state.2.tally with resolvents := state.2.tally.resolvents + 1 } } _ _ :=
      addClause_confines (confines.of_same rfl rfl) (List.subset_append_left _ _)
        fun other inside => List.mem_append_right _ (List.mem_map_of_mem inside)
    refine .bind (Run.Ends.lift stores) fun stored middle ⟨_, reached⟩ => ?_
    cases stored with
    | none => exact ih reached
    | some new => exact .bind (enqueue_confines reached) fun _ _ queued => ih queued

/-- Resolving all clauses touches only what is told. -/
theorem resolveAll_confines {negative : List (Handle × Nat)} (positive : List (Handle × Nat))
    (confines : base.Confines touched state.2) :
    (resolveAll gate pivot negative positive touched).Ends state
      (fun touched after => base.Confines touched after.2) fun _ _ => True := by
  induction positive generalizing state touched with
  | nil => exact .pure confines
  | cons entry rest ih =>
    unfold resolveAll
    exact .bind (resolveAgainst_confines negative confines) fun _ _ reached => ih reached

/-- Removing a side touches only what is told. -/
theorem removeSide_confines {engine : Engine} (handles : List Handle)
    (confines : base.Confines touched engine) :
    (removeSide own handles touched).Ends engine
      (fun touched after => base.Confines touched after) fun _ _ => True := by
  induction handles generalizing engine touched with
  | nil => exact .pure confines
  | cons handle rest ih =>
    unfold removeSide
    refine Engine.looks_clause.bind fun clause found => ?_
    split
    · exact ih confines
    next alive =>
    have live := Arena.live?_of_alive found alive
    refine .bind ((removeWithRecord_drops live).imp (fun _ _ => id) fun _ _ => False.elim)
      fun _ after drops => ih (confines.drops drops (List.subset_append_left _ _) ?_)
    intro other only again liveAgain inClause inside
    rw [List.mem_singleton.1 only, live, Option.some.injEq] at liveAgain
    exact List.mem_append_right _ (List.mem_map_of_mem (liveAgain ▸ inside))

/-! ## Attempts -/

/-- What the answer of an attempt says. A literal of a variable that is not reported is in
the same clauses as before, but for redundant clauses of the variable that was tried; if
nothing is reported, nothing happened. -/
structure Reports (base : Engine) (pivot : Nat) (touched : List Nat) (after : Engine) : Prop where
  filed : Filed (2 * base.trail.vars.size) after.index after.arena
  same : ∀ literal, literal.var ∉ touched → ∀ handle,
    after.arena.holds handle literal = base.arena.holds handle literal ∨
      (base.arena.holds handle literal = true ∧ after.arena.holds handle literal = false ∧
        ∃ clause, base.arena.live? handle = some clause ∧ clause.isRedundant = true ∧
          ∃ other ∈ clause.literals, other.var = pivot)
  nothing : touched = [] → after = base

/-- Where no clause went unreported there is no exception. -/
theorem Reports.of_confines {after : Engine} (confines : base.Confines touched after)
    (nothing : touched = [] → after = base) : Reports base pivot touched after :=
  ⟨confines.filed, fun literal absent handle => .inl (confines.same literal absent handle), nothing⟩

/-- A replacement tells what it touched. -/
theorem replaceByResolvents_reports {sides : GateSides} {redundant : List Handle}
    (unreported : AreRedundant base pivot redundant) (confines : base.Confines touched state.2) :
    (replaceByResolvents pivot sides redundant touched).Ends state
      (fun touched after => Reports base pivot touched after.2) fun _ _ => True := by
  unfold replaceByResolvents
  refine .bind (resolveAll_confines _ confines) fun seen resolved confines => ?_
  refine .bind (Run.Ends.lift (removeSide_confines _ confines)) fun seen first ⟨_, confines⟩ => ?_
  refine .bind (Run.Ends.lift (removeSide_confines _ confines)) fun seen second ⟨_, confines⟩ => ?_
  rw [forM_lift]
  refine .bind (Run.Ends.lift (removeAllLive_drops redundant))
    fun _ third ⟨_, removed, drops, among⟩ => ?_
  have same : ∀ literal, literal.var ∉ sortedNumbers (seen ++ [pivot]) → ∀ handle,
      third.2.arena.holds handle literal = base.arena.holds handle literal ∨
        (base.arena.holds handle literal = true ∧ third.2.arena.holds handle literal = false ∧
          ∃ clause, base.arena.live? handle = some clause ∧ clause.isRedundant = true ∧
            ∃ other ∈ clause.literals, other.var = pivot) := by
    intro literal absent handle
    have before := confines.same literal
      (fun named => absent (mem_sortedNumbers.2 (List.mem_append_left _ named))) handle
    by_cases isGone : handle ∈ removed
    · have isDead : third.2.arena.holds handle literal = false := by
        rw [Bool.eq_false_iff, Ne, Arena.holds_iff]
        rintro ⟨clause, live, _⟩
        rw [drops.dead handle isGone] at live
        cases live
      cases was : base.arena.holds handle literal with
      | false => exact .inl isDead
      | true => exact .inr ⟨rfl, isDead, unreported handle (among handle isGone)⟩
    · refine .inl (Eq.trans ?_ before)
      unfold Arena.holds
      rw [drops.others handle isGone]
  have filed := drops.filed _ confines.filed
  have named : sortedNumbers (seen ++ [pivot]) ≠ [] :=
    List.ne_nil_of_mem (mem_sortedNumbers.2 (List.mem_append_right _ List.mem_cons_self))
  have retired : (Engine.handle (.eliminated pivot)).Ends third.2 (fun _ after =>
      after.arena = third.2.arena ∧ after.index = third.2.index) fun _ _ => True :=
    .seq (Engine.updateTrail_ends fun _ _ => .of_done rfl ⟨rfl, rfl⟩)
  refine .bind (Run.Ends.lift retired) fun _ last ⟨_, arena, index⟩ => ?_
  have reports : Reports base pivot (sortedNumbers (seen ++ [pivot])) last.2 :=
    ⟨arena ▸ index ▸ filed, arena ▸ same, fun none_ => absurd none_ named⟩
  refine .step rfl ?_
  split
  · exact .step rfl (.pure ⟨reports.filed, reports.same, fun none_ => absurd none_ named⟩)
  · exact .pure ⟨reports.filed, reports.same, fun none_ => absurd none_ named⟩

/-- A decision reports what it changed, up to redundant clauses. -/
theorem decideElimination_reports {sides : GateSides} {redundant : List Handle}
    (unreported : AreRedundant base pivot redundant) (confines : base.Confines touched state.2)
    (nothing : touched = [] → state.2 = base) :
    (decideElimination pivot sides redundant touched).Ends state
      (fun touched after => Reports base pivot touched after.2) fun _ _ => True := by
  unfold decideElimination
  refine .bind forecast_forecasts fun found ⟨tool, engine⟩ ⟨ponders, _, _⟩ => ?_
  obtain ⟨_, same⟩ := ponders
  dsimp only at same
  subst same
  cases found with
  | none => exact .pure (.of_confines confines nothing)
  | some forecast =>
    refine .step rfl (.step rfl ?_)
    dsimp only
    split
    · exact .pure (.of_confines confines nothing)
    · exact .step rfl (replaceByResolvents_reports unreported (by exact confines))

section Sweeping

variable {side : Array Handle} {others redundant removed : List Handle}
  {before after : Tool Eliminator × Engine} {result : Bool × Array Handle × List Nat}

/-- The clauses that a sweep removes are reported. -/
theorem Swept.confines (swept : Swept own side others redundant touched before result after removed)
    (confines : base.Confines touched before.2) : base.Confines result.2.2 after.2 := by
  refine confines.drops swept.drops (swept.touched ▸ List.subset_append_left _ _) ?_
  intro handle isGone clause live other inside
  rw [swept.touched]
  refine List.mem_append_right _ (List.mem_flatMap.2 ⟨handle, isGone, ?_⟩)
  rw [Arena.text_of_live? live]
  exact List.mem_map_of_mem inside

/-- A sweep that reports nothing does nothing. -/
theorem Swept.nothing (swept : Swept own side others redundant touched before result after removed)
    (splits : before.2.Splits own side.toList others redundant)
    (unchanged : touched = [] → before.2 = base) (none_ : result.2.2 = []) : after.2 = base := by
  rw [swept.touched, List.append_eq_nil_iff] at none_
  refine (swept.drops.idle ?_).trans (unchanged none_.1)
  refine List.eq_nil_iff_forall_not_mem.2 fun handle isGone => ?_
  obtain ⟨clause, live, inside⟩ :=
    splits.own.all handle (swept.perm.mem_iff.1 (List.mem_append_left _ isGone))
  have silent := List.flatMap_eq_nil_iff.1 none_.2 handle isGone
  rw [Arena.text_of_live? live, List.map_eq_nil_iff] at silent
  rw [silent] at inside
  cases inside

/-- After blocked clauses are gone all that is touched is told. -/
theorem afterBlocked_reports {sides : GateSides}
    (filed : Filed (2 * state.2.trail.vars.size) state.2.index state.2.arena)
    (formed : ∀ handle clause, state.2.arena.live? handle = some clause →
      FormedOver state.2.numVars clause.literals)
    (splits : state.2.Splits (Literal.ofVar pivot true) sides.positive.toList sides.negative.toList
      redundant) (unreported : AreRedundant state.2 pivot redundant) :
    (afterBlocked pivot sides redundant).Ends state
      (fun touched after => Reports state.2 pivot touched after.2) fun _ _ => True := by
  have start : state.2.Confines [] state.2 := ⟨filed, fun _ _ _ => rfl⟩
  unfold afterBlocked
  refine .bind ((removeBlockedSide_sweeps filed formed splits).imp (fun _ _ => id)
    fun _ _ => False.elim) ?_
  rintro ⟨enough, positive, touched⟩ first ⟨_, sweptFirst⟩
  have confinesFirst := sweptFirst.confines start
  have nothingFirst := sweptFirst.nothing splits fun _ => rfl
  dsimp only at confinesFirst nothingFirst ⊢
  split
  swap
  · exact .pure (.of_confines confinesFirst nothingFirst)
  have splitsFirst := sweptFirst.splits.swap
  refine .bind ((removeBlockedSide_sweeps confinesFirst.filed (sweptFirst.formed formed)
    splitsFirst).imp (fun _ _ => id) fun _ _ => False.elim) ?_
  rintro ⟨enough, negative, touched⟩ second ⟨_, sweptSecond⟩
  have confinesSecond := sweptSecond.confines confinesFirst
  have nothingSecond := sweptSecond.nothing splitsFirst nothingFirst
  dsimp only at confinesSecond nothingSecond ⊢
  split
  swap
  · exact .pure (.of_confines confinesSecond nothingSecond)
  split
  · refine Run.Looks.bind Run.Looks.read.lift fun sides _ => ?_
    exact decideElimination_reports unreported confinesSecond nothingSecond
  · exact .step rfl (decideElimination_reports unreported confinesSecond nothingSecond)

end Sweeping

/-- A trial reports what it changed, up to redundant clauses. -/
theorem eliminate_reports (consistent : state.2.Consistent) (positivePivot : 0 < pivot)
    (small : 2 * pivot + 1 < UInt32.size) (removable : state.2.isRemovable? pivot = some true) :
    (eliminate pivot).Ends state (fun touched after => Reports state.2 pivot touched after.2)
      fun _ _ => True := by
  have filed := consistent.filed
  have formed : ∀ handle clause, state.2.arena.live? handle = some clause →
      FormedOver state.2.numVars clause.literals := fun handle clause live =>
    consistent.formed clause (Arena.mem_liveClauses_of_live? live)
  have idle : ∀ after, Ponders state after → Reports state.2 pivot [] after.2 := by
    rintro after ⟨_, same⟩
    rw [same]
    exact .of_confines ⟨filed, fun _ _ _ => rfl⟩ fun _ => rfl
  refine eliminate_ends filed.listed (removable_of_isRemovable? removable) positivePivot small
    (fun after ponders _ => idle after ponders) (fun after _ _ ponders _ _ => idle after ponders) ?_
  intro after sides redundant ponders begins _
  rw [← ponders.engine] at filed formed begins ⊢
  split
  · exact afterBlocked_reports filed formed begins.splits begins.redundant
  · exact decideElimination_reports begins.redundant ⟨filed, fun _ _ _ => rfl⟩ fun _ => rfl

/-- An attempt reports the variables that it touched, but for one thing. A literal of a
variable that is not reported is in the clauses it was in, and is counted as often, unless
it was in a redundant clause of the variable that was eliminated: that clause can be gone.
If nothing is reported, nothing happened. -/
theorem eliminate_reports_irredundant {engine after : Engine} {tool toolAfter : Tool Eliminator}
    (consistent : engine.Consistent) (positivePivot : 0 < pivot)
    (small : 2 * pivot + 1 < UInt32.size) (removable : engine.isRemovable? pivot = some true)
    (ended : eliminate pivot (tool, engine) = .done touched (toolAfter, after)) :
    (∀ literal, literal.var ∉ touched → ∀ handle,
      after.arena.holds handle literal = engine.arena.holds handle literal ∨
        (engine.arena.holds handle literal = true ∧ after.arena.holds handle literal = false ∧
          ∃ clause, engine.arena.live? handle = some clause ∧ clause.isRedundant = true ∧
            ∃ other ∈ clause.literals, other.var = pivot)) ∧
      (∀ literal, literal.var ∉ touched →
        (∀ clause ∈ engine.arena.liveClauses, clause.isRedundant = true →
          (∃ other ∈ clause.literals, other.var = pivot) → literal ∉ clause.literals) →
        after.index.count? literal = engine.index.count? literal) ∧
      (touched = [] → after = engine) := by
  have reports : (eliminate pivot).Ends (tool, engine) _ _ :=
    eliminate_reports (by exact consistent) positivePivot small (by exact removable)
  obtain ⟨filed, same, nothing⟩ := reports.done_of_eq ended
  refine ⟨same, fun literal unreported spared => ?_, nothing⟩
  refine Filed.count?_eq consistent.filed filed fun handle =>
    (same literal unreported handle).resolve_right ?_
  rintro ⟨before, _, clause, live, redundant, withPivot⟩
  obtain ⟨again, liveAgain, inside⟩ := Arena.holds_iff.1 before
  rw [live, Option.some.injEq] at liveAgain
  exact spared clause (Arena.mem_liveClauses_of_live? live) redundant withPivot (liveAgain ▸ inside)

/-- The variable of the other clause is not reported, and its literal stays where it was. -/
theorem eliminate_reports_irredundant_of_two :
    ∃ (engine after : Engine) (tool toolAfter : Tool Eliminator) (touched : List Nat),
      engine.Consistent ∧ engine.isRemovable? 1 = some true ∧
      eliminate 1 (tool, engine) = .done touched (toolAfter, after) ∧ touched = [1, 2, 3] ∧
      after.index.count? (.ofVar 4 true) = engine.index.count? (.ofVar 4 true) := by
  obtain ⟨_, start, made, isOpen, removable, irredundant, touched, after, ended, reported⟩ :
      (Simplifier.addClauses [[1, 2], [-1, 3], [3, 4]]).Returns (.ofVars {} 4)
        fun _ start => start.engine.unsat = false ∧ start.engine.isRemovable? 1 = some true ∧
          (∀ clause ∈ start.engine.arena.liveClauses, clause.isRedundant = false) ∧
          (eliminate 1).Returns ({ start.tools.elimination with budget := { limit := 100 } },
            start.engine) fun touched _ => touched = [1, 2, 3] := by
    decide +kernel
  obtain ⟨ready, _⟩ := Simplifier.ready_of_ofClauses made (by decide) isOpen
  refine ⟨start.engine, after.2, _, after.1, touched, ready.toConsistent, removable, ended,
    reported, ?_⟩
  refine (eliminate_reports_irredundant ready.toConsistent (by decide) (by decide) removable
    ended).2.1 _ (by rw [reported]; decide) fun clause live isRedundant => ?_
  rw [irredundant clause live] at isRedundant
  cases isRedundant

/-- A redundant clause of the variable that is eliminated goes, and the literal that it
had of a variable that is not reported loses an occurrence. -/
theorem eliminate_omits_redundant :
    ∃ (engine after : Engine) (tool toolAfter : Tool Eliminator) (touched : List Nat),
      engine.Consistent ∧ engine.isRemovable? 1 = some true ∧
      eliminate 1 (tool, engine) = .done touched (toolAfter, after) ∧ 4 ∉ touched ∧
      engine.index.count? (.ofVar 4 true) = some 2 ∧ after.index.count? (.ofVar 4 true) = some 1 := by
  obtain ⟨_, start, made, isOpen, _, engine, added, ⟨vars, nonempty, formed, clean⟩, touched,
      ⟨toolAfter, after⟩, ended, eliminated⟩ :
      (Simplifier.addClauses [[1, 2], [-1, 3], [3, 4]]).Returns (.ofVars {} 4)
        fun _ start => start.engine.unsat = false ∧
          (Engine.addClause ([1, 2, 4].map fun name => Literal.ofVar name true) true).Returns
            start.engine fun _ engine =>
              (engine.trail.vars.size = start.engine.trail.vars.size ∧ 0 < engine.trail.vars.size ∧
                (∀ clause ∈ engine.arena.liveClauses, FormedOver engine.numVars clause.literals) ∧
                engine.index.dirty = #[]) ∧
              (eliminate 1).Returns ({ start.tools.elimination with budget := { limit := 100 } },
                engine) fun touched after => decide (
                  engine.isRemovable? 1 = some true ∧ 4 ∉ touched ∧
                  engine.index.count? (.ofVar 4 true) = some 2 ∧
                  after.2.index.count? (.ofVar 4 true) = some 1) := by
    decide +kernel
  obtain ⟨removable, unreported, before, after_⟩ := of_decide_eq_true eliminated
  obtain ⟨ready, _⟩ := Simplifier.ready_of_ofClauses made (by decide) isOpen
  have start_ : start.engine.Confines [] start.engine :=
    ⟨ready.toConsistent.filed, fun _ _ _ => rfl⟩
  have filed := ((addClause_confines start_ (List.nil_subset [1, 2, 4]) (by decide)
    ).done_of_eq added).filed
  exact ⟨engine, after, _, toolAfter, touched,
    consistent_of_filed (vars ▸ filed) nonempty formed clean, removable, ended, unreported,
    before, after_⟩

end Eliminator

end CnfSimplifier
