import CnfSimplifier.Proofs.ExchangeSafety
import Mathlib.Order.Interval.Finset.Nat

/-!
# Only names can run out

Whatever is done to a simplifier, and in whatever order, it is standing and at rest in
between. So whatever comes next makes no access outside a table, uses no stale handle and
comes to its end, as long as there are names for the clauses and the variables that it brings
in; and a model can be extended in any case. No removed variable ever was in the way of an
assignment, since no clause has one. Variables with a value, eliminated variables and
substituted variables are different ones, and all of them are counted.
-/
namespace CnfSimplifier

/-! ## Extending models -/

namespace Reconstruction

/-- A stretch has literals of the list, but no separators. -/
theorem mem_of_mem_stretches {cells stretch : List Literal} {literal : Literal}
    (member : stretch ∈ stretches cells) (inside : literal ∈ stretch) :
    literal ∈ cells ∧ literal ≠ Literal.separator := by
  induction cells generalizing stretch with
  | nil =>
    obtain rfl := List.mem_singleton.1 member
    cases inside
  | cons first rest ih =>
    have later : ∀ {other}, other ∈ stretches rest → literal ∈ other →
        literal ∈ first :: rest ∧ literal ≠ Literal.separator :=
      fun member inside => (ih member inside).imp_left (List.mem_cons_of_mem _)
    unfold stretches at member
    split at member
    · rcases List.mem_cons.1 member with rfl | behind
      · cases inside
      · exact later behind inside
    next plain =>
      split at member
      · obtain rfl := List.mem_singleton.1 member
        obtain rfl := List.mem_singleton.1 inside
        exact ⟨List.mem_cons_self, plain⟩
      next front others isSplit =>
        rcases List.mem_cons.1 member with rfl | behind
        · rcases List.mem_cons.1 inside with rfl | inFront
          · exact ⟨List.mem_cons_self, plain⟩
          · exact later (isSplit ▸ List.mem_cons_self) inFront
        · exact later (isSplit ▸ List.mem_cons_of_mem _ behind) inside

/-- Whatever is read off the stack was pushed, also where a record has the separator. -/
theorem exists_pushed {records : List Record} {record : Record} {literal : Literal}
    (member : record ∈ (({} : Reconstruction).pushAll records).records)
    (inside : literal ∈ record.literals) : ∃ pushed ∈ records, literal ∈ pushed.literals := by
  obtain ⟨stretch, isStretch, isRecord⟩ := List.mem_filterMap.1 member
  have inStretch : literal ∈ stretch := by
    cases stretch with
    | nil => cases isRecord
    | cons chosen rest =>
      cases isRecord
      exact inside
  obtain ⟨inCells, plain⟩ := mem_of_mem_stretches (List.mem_reverse.1 isStretch) inStretch
  rw [cells_pushAll] at inCells
  obtain ⟨copy, isCopy, inCopy⟩ := List.mem_flatMap.1 inCells
  obtain ⟨pushed, isPushed, rfl⟩ := List.mem_map.1 isCopy
  exact ⟨pushed, isPushed, Record.mem_normal.1 ((List.mem_cons.1 inCopy).resolve_left plain)⟩

end Reconstruction

namespace Simplifier

variable {simplifier : Simplifier} {records : List Record}

/-- A list of integers that is read has literals in range only. -/
theorem inRange_of_readModel {literals : List Int} {values read : Model}
    (isRead : readModel literals values = .ok read) :
    ∀ literal ∈ literals, literal ≠ 0 ∧ literal.natAbs < values.size := by
  induction literals generalizing values with
  | nil => simp
  | cons literal rest ih =>
    unfold readModel at isRead
    split at isRead
    · cases isRead
    next nonzero =>
      split at isRead
      · cases isRead
      next inside => exact List.forall_mem_cons.2 ⟨⟨nonzero, by omega⟩, by simpa using ih isRead⟩

/-- A model of the exported formula can be extended, or it is refused. -/
theorem safe_extendModel {admitted : Breakdown → Prop} (literals : List Int)
    (standing : simplifier.Standing records)
    (within : ∀ record ∈ records, ∀ literal ∈ record.literals,
      0 < literal.var ∧ literal.var ≤ simplifier.numVars) :
    (extendModel literals).Safe admitted simplifier := by
  unfold extendModel
  refine .step rfl ?_
  rw [standing.sane.intact]
  dsimp only
  split
  · exact .fail
  next isOpen =>
  split
  · exact .fail
  next read isRead =>
  have exportable := standing.exportable (Bool.eq_false_iff.2 isOpen)
  have proper : ∀ literal ∈ literals, literal ≠ 0 ∧ literal.natAbs ≤ simplifier.numExported := by
    intro literal member
    have inRange := inRange_of_readModel isRead literal member
    rw [Array.size_replicate] at inRange
    exact ⟨inRange.1, Nat.le_of_lt_succ inRange.2⟩
  obtain ⟨_, again, size, value⟩ := exists_read proper
  obtain rfl := Except.ok.inj (isRead.symm.trans again)
  obtain ⟨rooted, extended, rootedSize, _⟩ := exists_rooted exportable size value
  have inRange : ∀ record ∈ simplifier.engine.records.records.reverse,
      ∀ literal ∈ record.literals, 0 < literal.var ∧ literal.var ≤ simplifier.numVars := by
    intro record member literal inside
    rw [standing.stack] at member
    obtain ⟨pushed, isPushed, inPushed⟩ :=
      Reconstruction.exists_pushed (List.mem_reverse.1 member) inside
    exact within pushed isPushed literal inPushed
  obtain ⟨after, replayed, _⟩ :=
    Reconstruction.replayAll_shows (Reconstruction.complete_shows rootedSize) inRange
  rw [List.reverse_reverse] at replayed
  exact .step (Run.access_of_eq_some (extended.trans replayed)) .pure

end Simplifier

/-! ## Counting variables -/

/-- The places of the entries with a mark are counted one by one. -/
theorem card_filter_places {α : Type} (entries : List α) (mark : α → Bool) :
    ((Finset.range entries.length).filter fun place => (entries[place]?).any mark).card =
      entries.countP mark := by
  induction entries using List.reverseRecOn with
  | nil => rfl
  | append_singleton entries last ih =>
    have same : ((Finset.range entries.length).filter fun place =>
        ((entries ++ [last])[place]?).any mark) =
        (Finset.range entries.length).filter fun place => (entries[place]?).any mark := by
      refine Finset.filter_congr fun place inside => ?_
      rw [List.getElem?_append_left (Finset.mem_range.1 inside)]
    rw [List.length_append, List.length_singleton, Finset.range_add_one, Finset.filter_insert, same,
      List.countP_append, ← ih]
    cases isMarked : mark last <;> simp [isMarked]

namespace Trail

variable {trail : Trail}

/-- The variables that have a value. -/
def assigned (trail : Trail) : Finset Nat :=
  (Finset.Icc 1 trail.numVars).filter fun name => ((trail.value? name).join).isSome

/-- The variables that have a mark. -/
def marked (trail : Trail) (mark : VarFlags → Bool) : Finset Nat :=
  (Finset.Icc 1 trail.numVars).filter fun name => (trail.flags? name).any mark

/-- The variables with a value, the eliminated and the substituted ones are different
variables, and as many as is kept count of. -/
structure Apportioned (trail : Trail) : Prop where
  atRoot : trail.assigned = (trail.rootLiterals.map Literal.var).toFinset
  root : trail.assigned.card = trail.numRoot
  eliminated : (trail.marked VarFlags.eliminated).card = trail.eliminated
  substituted : (trail.marked VarFlags.substituted).card = trail.substituted
  notEliminated : Disjoint trail.assigned (trail.marked VarFlags.eliminated)
  notSubstituted : Disjoint trail.assigned (trail.marked VarFlags.substituted)
  notBoth : Disjoint (trail.marked VarFlags.eliminated) (trail.marked VarFlags.substituted)
  /-- What is left over is not less than nothing. -/
  fits : trail.numRoot + trail.eliminated + trail.substituted ≤ trail.numVars

theorem mem_marked {mark : VarFlags → Bool} {name : Nat} (isMarked : name ∈ trail.marked mark) :
    ∃ flags, trail.flags? name = some flags ∧ mark flags = true :=
  (Option.any_eq_true _ _).1 (Finset.mem_filter.1 isMarked).2

/-- Marks of removed variables are counted over the variables, unless entry 0 has one. -/
theorem card_marked {mark : VarFlags → Bool} (nonempty : 0 < trail.vars.size)
    (kept : ¬ trail.Removed 0) (removes : ∀ flags, mark flags = true → flags.isRemoved = true) :
    (trail.marked mark).card = (trail.vars.map VarState.flags).countP mark := by
  have entry : ∀ name : Nat, (trail.vars.map VarState.flags).toList[name]? = trail.flags? name := by
    intro name
    rw [Array.getElem?_toList, Array.getElem?_map]
    rfl
  rw [← Array.countP_toList, ← card_filter_places]
  congr 1
  ext name
  simp only [marked, numVars, Finset.mem_filter, Finset.mem_Icc, Finset.mem_range, entry,
    Array.length_toList, Array.size_map]
  refine and_congr_left fun isMarked => ?_
  obtain ⟨flags, found, markedSo⟩ := (Option.any_eq_true _ _).1 isMarked
  have present : name ≠ 0 := by
    rintro rfl
    exact kept ⟨flags, found, removes flags markedSo⟩
  omega

/-- What has a value is a fact. -/
theorem assigned_eq (sound : trail.Sound) (orderly : trail.Orderly)
    (known : ∀ literal ∈ trail.facts, 0 < literal.var ∧ literal.var ≤ trail.numVars) :
    trail.assigned = (trail.facts.map Literal.var).toFinset := by
  ext name
  rw [assigned, Finset.mem_filter, Finset.mem_Icc, List.mem_toFinset, List.mem_map]
  constructor
  · rintro ⟨⟨positive, small⟩, hasValue⟩
    obtain ⟨value, isValue⟩ := Option.isSome_iff_exists.1 hasValue
    have inside : name < trail.vars.size := by
      have nonempty := sound.nonempty
      unfold numVars at small
      omega
    have var := @Literal.var_ofVar name value positive (sound.small_of_lt inside)
    obtain ⟨state, found, isState⟩ : ∃ state, trail.vars[name]? = some state ∧
        state.value = some value := by
      simpa [value?, Option.join_eq_some_iff, Array.getElem?_eq_getElem inside] using isValue
    refine ⟨.ofVar name value, ?_, var⟩
    rw [orderly]
    refine sound.agrees _ state (var.symm ▸ positive) (var.symm ▸ found) ?_
    rw [isState, Literal.isPositive_ofVar positive (sound.small_of_lt inside)]
  · rintro ⟨literal, fact, rfl⟩
    have isValue := (mem_facts.1 fact).2
    exact ⟨known literal fact, by simp [isValue]⟩

/-- No variable with a value has the mark of a removed one. -/
theorem disjoint_assigned_marked {mark : VarFlags → Bool}
    (assigned : trail.assigned = (trail.facts.map Literal.var).toFinset)
    (kept : ∀ literal ∈ trail.facts, ¬ trail.Removed literal.var)
    (removes : ∀ flags, mark flags = true → flags.isRemoved = true) :
    Disjoint trail.assigned (trail.marked mark) := by
  refine Finset.disjoint_left.2 fun name hasValue isMarked => ?_
  rw [assigned, List.mem_toFinset, List.mem_map] at hasValue
  obtain ⟨literal, fact, rfl⟩ := hasValue
  obtain ⟨flags, found, markedSo⟩ := mem_marked isMarked
  exact kept literal fact ⟨flags, found, removes flags markedSo⟩

/-- Between calls every variable has at most one fate. -/
theorem apportioned (sound : trail.Sound) (inOrder : trail.InOrder) (accounts : trail.Accounts)
    (known : ∀ literal ∈ trail.facts,
      0 < literal.var ∧ literal.var ≤ trail.numVars ∧ ¬ trail.Removed literal.var) :
    trail.Apportioned := by
  have rootLiterals : trail.rootLiterals = trail.facts :=
    sound.rootLiterals.trans inOrder.orderly.symm
  have assigned : trail.assigned = (trail.facts.map Literal.var).toFinset :=
    assigned_eq sound inOrder.orderly fun literal fact =>
      ⟨(known literal fact).1, (known literal fact).2.1⟩
  have root : trail.assigned.card = trail.numRoot := by
    rw [assigned, List.toFinset_card_of_nodup trail.nodup_facts, List.length_map, ← rootLiterals,
      sound.rootLiterals, numRoot, sound.atRoot]
    simp
  have eliminates : ∀ flags, VarFlags.eliminated flags = true → flags.isRemoved = true :=
    fun flags isEliminated => by simp [VarFlags.isRemoved, isEliminated]
  have substitutes : ∀ flags, VarFlags.substituted flags = true → flags.isRemoved = true :=
    fun flags isSubstituted => by simp [VarFlags.isRemoved, isSubstituted]
  have eliminated : (trail.marked VarFlags.eliminated).card = trail.eliminated :=
    (card_marked sound.nonempty inOrder.kept eliminates).trans accounts.eliminated.symm
  have substituted : (trail.marked VarFlags.substituted).card = trail.substituted :=
    (card_marked sound.nonempty inOrder.kept substitutes).trans accounts.substituted.symm
  have kept := fun literal fact => (known literal fact).2.2
  have notEliminated := disjoint_assigned_marked assigned kept eliminates
  have notSubstituted := disjoint_assigned_marked assigned kept substitutes
  have notBoth : Disjoint (trail.marked VarFlags.eliminated) (trail.marked VarFlags.substituted) := by
    refine Finset.disjoint_left.2 fun name isEliminated isSubstituted => ?_
    obtain ⟨flags, found, first⟩ := mem_marked isEliminated
    obtain ⟨others, again, second⟩ := mem_marked isSubstituted
    obtain rfl : flags = others := Option.some.inj (found.symm.trans again)
    exact accounts.apart name flags found ⟨first, second⟩
  refine ⟨rootLiterals ▸ assigned, root, eliminated, substituted, notEliminated, notSubstituted,
    notBoth, ?_⟩
  have all : trail.assigned ∪ trail.marked VarFlags.eliminated ∪
      trail.marked VarFlags.substituted ⊆ Finset.Icc 1 trail.numVars :=
    Finset.union_subset (Finset.union_subset (Finset.filter_subset _ _) (Finset.filter_subset _ _))
      (Finset.filter_subset _ _)
  have few := Finset.card_le_card all
  rw [Finset.card_union_of_disjoint (Finset.disjoint_union_left.2 ⟨notSubstituted, notBoth⟩),
    Finset.card_union_of_disjoint notEliminated, root, eliminated, substituted, Nat.card_Icc] at few
  exact few

end Trail

/-! ## Whole dealings -/

namespace Simplifier

variable {start final simplifier : Simplifier} {records : List Record} {entries : List Dealt}
  {settings : Settings}

/-- Nothing is wrong with a simplifier, and whatever is asked of it next can lack nothing
but names. -/
structure Unfailing (simplifier : Simplifier) : Prop where
  /-- A call or an exchange gets stuck only when all names of clauses or of variables were
  given away: it makes no access outside a table, and its loops come to an end. -/
  deals : ∀ (dealing : Dealing) why, dealing.perform simplifier = .stuck why → why = .outOfSpace
  /-- A model is extended, or it is refused. -/
  models : ∀ literals why, extendModel literals simplifier ≠ .stuck why
  /-- The marks of a variable can be looked at before it is exported. -/
  marks : ∀ name ≤ simplifier.numVars, ∃ flags, simplifier.engine.trail.flags? name = some flags
  intact : simplifier.engine.poisoned = none
  /-- No clause has a variable that was eliminated or substituted. -/
  present : ∀ clause ∈ simplifier.engine.arena.liveClauses, ∀ literal ∈ clause.literals,
    ¬ simplifier.engine.trail.Removed literal.var
  apportioned : simplifier.engine.trail.Apportioned

/-- A standing simplifier at rest is unfailing. -/
theorem Standing.unfailing (standing : simplifier.Standing records) (rest : simplifier.AtRest)
    (within : ∀ record ∈ records, ∀ literal ∈ record.literals,
      0 < literal.var ∧ literal.var ≤ simplifier.numVars) : simplifier.Unfailing where
  deals dealing why stuck := by
    have fares := dealing.perform_fares standing rest
    refine fares.safe why ?_
    unfold Run.attempt
    rw [stuck]
  models literals why stuck :=
    @safe_extendModel _ _ (fun _ => False) literals standing within why stuck
  marks name small := by
    have inside : name < simplifier.engine.trail.vars.size :=
      Trail.lt_of_le_numVars standing.sane.trail.nonempty small
    exact ⟨_, by simp [Trail.flags?, inside]; rfl⟩
  intact := standing.sane.intact
  present clause live literal inside := by
    let _ : Realm := .all
    obtain ⟨slot, found, alive⟩ := Arena.mem_liveClauses.1 live
    have stored : clause.literals ∈ simplifier.engine.arena.contents :=
      Arena.mem_contents.2 ⟨slot, clause, found, alive, rfl⟩
    have present := (standing.sane.formed.admits _ stored).present literal inside
    exact present.2.2.1.resolve_right id
  apportioned := by
    let _ : Realm := .all
    refine Trail.apportioned standing.sane.trail rest.trail standing.sane.accounts fun literal fact => ?_
    obtain ⟨positive, small, kept, _⟩ := standing.sane.formed.known literal fact
    exact ⟨positive, small, kept.resolve_right id⟩

/-- Nothing of the formula is left out on export: no root literal and no literal of a live
clause is without a number. -/
structure ExportsWhole (simplifier : Simplifier) : Prop where
  root : ∀ literal ∈ simplifier.engine.trail.rootLiterals,
    (simplifier.exportLiteral? literal).isSome = true
  clauses : ∀ clause ∈ simplifier.engine.arena.liveClauses, ∀ literal ∈ clause.literals,
    (simplifier.exportLiteral? literal).isSome = true

/-- A covered formula is exported as a whole. -/
theorem Covered.exportsWhole (covered : simplifier.Covered) (standing : simplifier.Standing records)
    (isOpen : simplifier.engine.unsat = false) : simplifier.ExportsWhole := by
  let _ : Realm := .all
  have inFormula : ∀ clause ∈ simplifier.engine.picture.formula, ∀ literal ∈ clause,
      (simplifier.exportLiteral? literal).isSome = true := by
    intro clause member literal inside
    have positive := (standing.sane.formed.known_of_mem member inside).1
    obtain ⟨number, found⟩ :=
      (covered _ positive ⟨clause, member, literal, inside, rfl⟩).exists_number?
    rw [exportLiteral?_eq positive, found]
    rfl
  have isRoot : simplifier.engine.trail.rootLiterals = simplifier.engine.picture.root :=
    (standing.exportable isOpen).rootLiterals
  exact ⟨fun literal atRoot => inFormula _ (Picture.mem_formula_of_root (isRoot ▸ atRoot)) literal
    List.mem_cons_self, fun clause live => inFormula _ (mem_formula_of_liveClauses live)⟩

/-- A formula can be read as long as there are names for its clauses and variables, and
whatever is done to the simplifier afterwards, it stays unfailing. Its formula is exported as
a whole, unless a call added a clause over a variable that had been left out of the
numbering. -/
theorem unfailing_of_dealings (settings : Settings) :
    (∀ formula : List (List Int), (∀ clause ∈ formula, ∀ literal ∈ clause, literal.natAbs < 2 ^ 31) →
      ∀ why, ofClauses settings formula = .stuck why → why = .outOfSpace) ∧
    ∀ start entries final, Begun settings start → Dealings start entries final →
      final.Unfailing ∧
        (AddsNumbered entries → final.engine.unsat = false → final.ExportsWhole) := by
  constructor
  · intro formula small why stuck
    exact (addClauses_fares formula (atRest_ofVars settings _)
      (standing_ofVars settings (numVars_ofClauses_lt small))).safe why stuck
  · intro start entries final begun dealings
    obtain ⟨records, kept⟩ := dealings.exists_kept begun.fresh
    exact ⟨kept.standing.unfailing (dealings.atRest begun) kept.within,
      fun numbered isOpen => (kept.covered numbered).exportsWhole kept.standing isOpen⟩

/-- A run eliminates variables and replaces one by its equivalent, and then the rest is
exchanged with a solver that has a root literal of its own. -/
theorem unfailing_of_dealings_exchange :
    let settings : Settings :=
      { Settings.bare {} with
        equivalences := true, elimination := true, workers := 2, renumbering := true }
    let formula : List (List Int) := [[1, 2, 3], [-1, 2, 4], [-4, 3], [4, -3], [5]]
    (∀ why, ofClauses settings formula = .stuck why → why = .outOfSpace) ∧
    ∃ start entries final, ofClauses settings formula = .done () start ∧
      Dealings start entries final ∧ entries.length = 3 ∧ final.numVars = 6 ∧
      final.engine.trail.numRoot = 2 ∧ final.engine.trail.eliminated = 2 ∧
      final.engine.trail.substituted = 1 ∧ final.Unfailing ∧ final.ExportsWhole := by
  intro settings formula
  have small : ∀ clause ∈ formula, ∀ literal ∈ clause, literal.natAbs < 2 ^ 31 := by decide
  obtain ⟨reads, stays⟩ := unfailing_of_dealings settings
  obtain ⟨start, entries, final, made, dealings, checked⟩ := exists_of_dealTrial
    (ofClauses settings formula)
    [.exchange { numVars := 2, clauses := [[-1, 2], [1, 2]], trail := [3] } false,
      .call (.run false), .call (.freeze 3)]
    (fun entries final => decide (entries.length = 3 ∧ final.numVars = 6 ∧
      final.engine.trail.numRoot = 2 ∧ final.engine.trail.eliminated = 2 ∧
      final.engine.trail.substituted = 1 ∧ AddsNumbered entries ∧ final.engine.unsat = false))
    (by decide +kernel)
  obtain ⟨length, numVars, numRoot, eliminated, substituted, numbered, isOpen⟩ :=
    of_decide_eq_true checked
  obtain ⟨unfailing, whole⟩ := stays start entries final (.formula made small) dealings
  exact ⟨reads formula small, start, entries, final, made, dealings, length, numVars, numRoot,
    eliminated, substituted, unfailing, whole numbered isOpen⟩

/-- A clause over a variable that was left out of the numbering is accepted, and then the
formula is not exported as a whole. -/
theorem not_exportsWhole_of_unnumbered :
    ∃ start entries final,
      ofClauses { Settings.bare {} with blockedClauses := true, renumbering := true }
        [[1, 2], [3, 4]] = .done () start ∧
      Dealings start entries final ∧ final.engine.unsat = false ∧ ¬ final.ExportsWhole := by
  obtain ⟨start, entries, final, made, dealings, checked⟩ := exists_of_dealTrial
    (ofClauses { Settings.bare {} with blockedClauses := true, renumbering := true } [[1, 2], [3, 4]])
    [.call (.addClause [1, 4]), .call (.run false), .call (.freeze 4)]
    (fun _ final => decide (final.engine.unsat = false ∧
      ∃ clause ∈ final.engine.arena.liveClauses, ∃ literal ∈ clause.literals,
        (final.exportLiteral? literal).isSome = false)) (by decide +kernel)
  obtain ⟨isOpen, clause, live, literal, inside, lost⟩ := of_decide_eq_true checked
  refine ⟨start, entries, final, made, dealings, isOpen, fun whole => ?_⟩
  exact absurd ((whole.clauses clause live literal inside).symm.trans lost) (by decide)

end Simplifier

end CnfSimplifier
