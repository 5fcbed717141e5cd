import CnfSimplifier.Proofs.AppliedUnits
import CnfSimplifier.Proofs.Consistency
import CnfSimplifier.Proofs.Safety
import CnfSimplifier.Proofs.ComposedTechniques

/-!
# The closure under unit propagation

Applying root literals takes satisfied clauses away, takes false literals out of the
others, and appends the literals of the clauses that become units. Each such turn only
*prunes* the engine: every clause has lost nothing but false literals, or was satisfied,
and every root literal follows by unit propagation from the clauses and the root
literals at the start. In which order the lists are walked does not matter for that.

When no literal is left to apply, no clause mentions a root variable, so there is nothing
that unit propagation could derive from what is left. Hence the root literals are
the whole closure of the start, and the clauses are what the closure leaves of them.
-/
namespace CnfSimplifier

/-! ## Sets of literals that are closed -/

/-- Under some facts every clause has a true literal, or two literals that are not false. -/
def Saturates (facts : Set Literal) (clauses : Set (List Literal)) : Prop :=
  ∀ literals ∈ clauses, (∃ literal ∈ literals, literal ∈ facts) ∨
    ∃ first ∈ literals, ∃ second ∈ literals, first ≠ second ∧
      first.complement ∉ facts ∧ second.complement ∉ facts

namespace Saturates

variable {facts assumed : Set Literal} {clauses : Set (List Literal)} {literal : Literal}

/-- Unit propagation derives nothing but facts. -/
theorem mem_of_propagates (saturates : Saturates facts clauses)
    (proper : ∀ literal ∈ facts, literal.complement ∉ facts) (granted : assumed ⊆ facts)
    (derived : Propagates clauses assumed literal) : literal ∈ facts := by
  induction derived with
  | assumption member => exact granted member
  | @unit literals literal clause member _ falsified =>
    rcases saturates literals clause with ⟨other, inside, fact⟩ |
        ⟨first, isFirst, second, isSecond, different, firstOpen, secondOpen⟩
    · by_cases same : other = literal
      · exact same ▸ fact
      · exact absurd (falsified other inside same) (proper other fact)
    · by_cases same : first = literal
      · have distinct : second ≠ literal := fun isLiteral => different (same.trans isLiteral.symm)
        exact absurd (falsified second isSecond distinct) secondOpen
      · exact absurd (falsified first isFirst same) firstOpen

/-- Unit propagation finds no conflict. -/
theorem not_conflicts (saturates : Saturates facts clauses)
    (proper : ∀ literal ∈ facts, literal.complement ∉ facts) (granted : assumed ⊆ facts) :
    ¬ Conflicts clauses assumed := by
  rintro ⟨literals, clause, falsified⟩
  have false_ : ∀ literal ∈ literals, literal.complement ∈ facts := fun literal inside =>
    saturates.mem_of_propagates proper granted (falsified literal inside)
  rcases saturates literals clause with ⟨other, inside, fact⟩ | ⟨first, isFirst, _, _, _, isOpen, _⟩
  · exact proper other fact (false_ other inside)
  · exact isOpen (false_ first isFirst)

end Saturates

/-- Two different literals of a clause. -/
theorem Literal.exists_ne {literals : List Literal} (two : 2 ≤ literals.length)
    (nodup : literals.Nodup) : ∃ first ∈ literals, ∃ second ∈ literals, first ≠ second := by
  refine ⟨literals[0], List.getElem_mem _, literals[1], List.getElem_mem _, fun same => ?_⟩
  exact absurd (nodup.getElem_inj_iff.1 same) Nat.zero_ne_one

/-! ## Clauses under true literals -/

/-- The live clauses, as lists of literals. -/
def Arena.formula (arena : Arena) : Set (List Literal) :=
  {literals | ∃ clause ∈ arena.liveClauses, clause.literals = literals}

/-- The literals that are true at the root. -/
def Trail.root (trail : Trail) : Set Literal := {literal | literal ∈ trail.rootLiterals}

/-- What true literals leave of a clause that they do not satisfy. -/
structure Clause.LeavesOf (facts : List Literal) (old left : Clause) : Prop where
  literals : left.literals = old.literals.filter fun literal => literal.complement ∉ facts
  redundant : left.isRedundant = old.isRedundant
  two : 2 ≤ left.literals.length

/-- What true literals leave of the live clauses, slot by slot. -/
structure Arena.ReducesTo (facts : List Literal) (before after : Arena) : Prop where
  slots : after.slots.size = before.slots.size
  epoch : after.epoch = before.epoch
  satisfied : ∀ handle old, before.live? handle = some old →
    (∃ literal ∈ old.literals, literal ∈ facts) → after.live? handle = none
  left : ∀ handle old, before.live? handle = some old →
    (∀ literal ∈ old.literals, literal ∉ facts) →
      ∃ left, after.live? handle = some left ∧ Clause.LeavesOf facts old left
  dead : ∀ handle, before.live? handle = none → after.live? handle = none

/-! ## Clauses that lose false literals -/

/-- A clause lost literals that are false. -/
structure Clause.Trims (facts : List Literal) (old clause : Clause) : Prop where
  part : clause.literals.Sublist old.literals
  lost : ∀ literal ∈ old.literals, literal ∉ clause.literals → literal.complement ∈ facts
  redundant : clause.isRedundant = old.isRedundant

/-- What became of the clause of a handle. -/
inductive Clause.Fate (facts : List Literal) : Option Clause → Option Clause → Prop
  | absent : Fate facts none none
  | satisfied {old : Clause} {literal : Literal} (inside : literal ∈ old.literals)
    (fact : literal ∈ facts) : Fate facts (some old) none
  | trimmed {old clause : Clause} (trims : Trims facts old clause) :
    Fate facts (some old) (some clause)

namespace Clause

variable {facts more : List Literal} {old clause last : Clause}

theorem Trims.refl : Trims facts clause clause :=
  ⟨List.Sublist.refl _, fun _ inside absent => absurd inside absent, rfl⟩

theorem Trims.trans (first : Trims facts old clause) (second : Trims more clause last)
    (fewer : facts ⊆ more) : Trims more old last := by
  refine ⟨second.part.trans first.part, fun literal inside absent => ?_,
    second.redundant.trans first.redundant⟩
  by_cases between : literal ∈ clause.literals
  · exact second.lost literal between absent
  · exact fewer (first.lost literal inside between)

theorem Fate.refl (found : Option Clause) : Fate facts found found := by
  cases found with
  | none => exact .absent
  | some clause => exact .trimmed .refl

theorem Fate.trans {first middle last : Option Clause} (earlier : Fate facts first middle)
    (later : Fate more middle last) (fewer : facts ⊆ more) : Fate more first last := by
  cases earlier with
  | absent => exact later
  | satisfied inside fact =>
    cases later
    exact .satisfied inside (fewer fact)
  | trimmed trims =>
    cases later with
    | satisfied inside fact => exact .satisfied (trims.part.subset inside) fact
    | trimmed further => exact .trimmed (trims.trans further fewer)

end Clause

namespace Arena

variable {arena after : Arena} {handle : Handle}

theorem epoch_remove (removed : arena.remove handle = some after) : after.epoch = arena.epoch := by
  unfold remove at removed
  split at removed
  · cases removed
  · cases removed
    rfl

theorem epoch_strengthen {literal : Literal} {length : Nat}
    (changed : arena.strengthen handle literal = some (length, after)) :
    after.epoch = arena.epoch := by
  unfold strengthen at changed
  split at changed
  · cases changed
  · dsimp only at changed
    split at changed <;> cases changed <;> rfl

end Arena

namespace Engine

variable {engine before middle after : Engine} {literal : Literal} {handle : Handle}
  {clause : Clause}

/-- The facts of the trail, as a set. -/
def factSet (engine : Engine) : Set Literal := {literal | literal ∈ engine.trail.facts}

/-- Clauses lost false literals or were satisfied, and new facts follow by unit
propagation. -/
structure Prunes (before after : Engine) : Prop where
  facts : before.trail.facts ⊆ after.trail.facts
  derived : ∀ literal ∈ after.trail.facts,
    Propagates before.arena.formula before.factSet literal
  clauses : ∀ handle,
    Clause.Fate after.trail.facts (before.arena.live? handle) (after.arena.live? handle)

/-- Unit propagation finds a conflict, and a root literal ran into it. -/
def Clashes (engine : Engine) (cause : Error) : Prop :=
  (∃ literal, cause = .rootConflict literal) ∧ Conflicts engine.arena.formula engine.factSet

theorem mem_formula_of_live (live : engine.arena.live? handle = some clause) :
    clause.literals ∈ engine.arena.formula :=
  Arena.exists_liveClause (Arena.contents_of_live live)

/-- A clause of the formula has a handle. -/
theorem InStep.exists_live (inStep : engine.InStep) {literals : List Literal}
    (stored : literals ∈ engine.arena.formula) :
    ∃ handle clause, engine.arena.live? handle = some clause ∧ clause.literals = literals := by
  obtain ⟨clause, isLive, rfl⟩ := stored
  obtain ⟨slot, found, alive⟩ := Arena.mem_liveClauses.1 isLive
  exact ⟨_, clause, Arena.live?_handleAt inStep.space.le found alive, rfl⟩

namespace Prunes

theorem refl : Prunes engine engine :=
  ⟨List.Subset.refl _, fun _ fact => .assumption fact, fun _ => .refl _⟩

/-- The clause that a pruned one comes from. -/
theorem exists_old (prunes : Prunes before after) (live : after.arena.live? handle = some clause) :
    ∃ old, before.arena.live? handle = some old ∧ Clause.Trims after.trail.facts old clause := by
  have fate := prunes.clauses handle
  rw [live] at fate
  cases found : before.arena.live? handle with
  | none =>
    rw [found] at fate
    cases fate
  | some old =>
    rw [found] at fate
    cases fate with
    | trimmed trims => exact ⟨old, rfl, trims⟩

/-- What the pruned clauses derive the clauses at the start derive. -/
theorem propagates (prunes : Prunes before after) (inStep : after.InStep)
    (derived : Propagates after.arena.formula after.factSet literal) :
    Propagates before.arena.formula before.factSet literal := by
  induction derived with
  | assumption fact => exact prunes.derived _ fact
  | @unit literals literal stored member _ falsified =>
    obtain ⟨handle, clause, live, rfl⟩ := inStep.exists_live stored
    obtain ⟨old, liveOld, trims⟩ := prunes.exists_old live
    refine .unit (mem_formula_of_live liveOld) (trims.part.subset member) fun other inside different => ?_
    by_cases stays : other ∈ clause.literals
    · exact falsified other stays different
    · exact prunes.derived _ (trims.lost other inside stays)

/-- A conflict after a pruning was there before. -/
theorem conflicts (prunes : Prunes before after) (inStep : after.InStep)
    (conflict : Conflicts after.arena.formula after.factSet) :
    Conflicts before.arena.formula before.factSet := by
  obtain ⟨literals, stored, falsified⟩ := conflict
  obtain ⟨handle, clause, live, rfl⟩ := inStep.exists_live stored
  obtain ⟨old, liveOld, trims⟩ := prunes.exists_old live
  refine ⟨old.literals, mem_formula_of_live liveOld, fun other inside => ?_⟩
  by_cases stays : other ∈ clause.literals
  · exact prunes.propagates inStep (falsified other stays)
  · exact prunes.derived _ (trims.lost other inside stays)

theorem clashes (prunes : Prunes before after) (inStep : after.InStep) {cause : Error}
    (clashes : after.Clashes cause) : before.Clashes cause :=
  ⟨clashes.1, prunes.conflicts inStep clashes.2⟩

theorem trans (first : Prunes before middle) (inStep : middle.InStep)
    (second : Prunes middle after) : Prunes before after where
  facts := List.Subset.trans first.facts second.facts
  derived literal fact := first.propagates inStep (second.derived literal fact)
  clauses handle := (first.clauses handle).trans (second.clauses handle) second.facts

/-- Of the engine only the slots and the facts matter. -/
theorem of_same (arena : after.arena = before.arena) (trail : after.trail = before.trail) :
    Prunes before after := by
  refine ⟨by rw [trail]; exact List.Subset.refl _, fun literal fact => .assumption ?_,
    fun handle => ?_⟩
  · rw [trail] at fact
    exact fact
  · rw [arena]
    exact .refl _

end Prunes

/-! ## Places -/

/-- The slots are as many, and they have the same handles. -/
structure SamePlaces (before after : Engine) : Prop where
  slots : after.arena.slots.size = before.arena.slots.size
  epoch : after.arena.epoch = before.arena.epoch

instance : Tolerant SamePlaces where
  refl _ := ⟨rfl, rfl⟩
  trans first second := ⟨second.slots.trans first.slots, second.epoch.trans first.epoch⟩
  aside arena _ _ := ⟨by rw [arena], by rw [arena]⟩
  removes removed := ⟨(Arena.shrinks_remove removed).slots, Arena.epoch_remove removed⟩
  strengthens changed := ⟨(Arena.shrinks_strengthen changed).slots, Arena.epoch_strengthen changed⟩
  promotes promoted :=
    have same := Arena.sameClauses_makeIrredundant promoted
    ⟨same.size, same.epoch⟩
  assigns _ _ := Run.Ends.trivial.imp (fun _ _ _ => ⟨rfl, rfl⟩) fun _ _ _ => ⟨rfl, rfl⟩

/-! ## Closed facts -/

/-- What is left of all clauses shows that the facts are closed. -/
theorem InStep.saturates {facts : List Literal} {arena : Arena} (inStep : engine.InStep)
    (reduces : engine.arena.ReducesTo facts arena) :
    Saturates {literal | literal ∈ facts} engine.arena.formula := by
  intro literals stored
  obtain ⟨handle, old, live, rfl⟩ := inStep.exists_live stored
  by_cases satisfied : ∃ literal ∈ old.literals, literal ∈ facts
  · exact .inl satisfied
  right
  push Not at satisfied
  obtain ⟨left, _, leaves⟩ := reduces.left handle old live satisfied
  have two := leaves.two
  have nodup := Literal.nodup_of_pairwise_lt left.sorted
  rw [leaves.literals] at two nodup
  have kept : ∀ literal ∈ old.literals.filter fun literal => literal.complement ∉ facts,
      literal ∈ old.literals ∧ literal.complement ∉ facts := fun literal member =>
    ⟨List.mem_of_mem_filter member, of_decide_eq_true (List.mem_filter.1 member).2⟩
  obtain ⟨first, isFirst, second, isSecond, different⟩ := Literal.exists_ne two nodup
  exact ⟨first, (kept first isFirst).1, second, (kept second isSecond).1, different,
    (kept first isFirst).2, (kept second isSecond).2⟩

/-! ## Single turns -/

/-- A clause with a true literal may go. -/
theorem Removes.prunes (removes : Removes engine handle clause after)
    (live : engine.arena.live? handle = some clause) (inside : literal ∈ clause.literals)
    (fact : literal ∈ engine.trail.facts) : Prunes engine after where
  facts := by rw [removes.trail]; exact List.Subset.refl _
  derived other isFact := by
    rw [removes.trail] at isFact
    exact .assumption isFact
  clauses other := by
    by_cases same : other = handle
    · subst same
      rw [live, removes.live?_self live]
      exact .satisfied inside (removes.trail ▸ fact)
    · have unchanged : after.arena.live? other = engine.arena.live? other := by
        simp only [Arena.live?, removes.get?_of_ne live same]
      rw [unchanged]
      exact .refl _

/-- A false literal may be taken out of a clause. -/
theorem Shortens.prunes (shortens : Shortens engine handle clause literal after)
    (live : engine.arena.live? handle = some clause)
    (falsified : literal.complement ∈ engine.trail.facts) : Prunes engine after where
  facts := by rw [shortens.trail]; exact List.Subset.refl _
  derived other isFact := by
    rw [shortens.trail] at isFact
    exact .assumption isFact
  clauses other := by
    by_cases same : other = handle
    · subst same
      obtain ⟨shorter, liveShorter, literals, redundant⟩ := shortens.live
      rw [live, liveShorter]
      refine .trimmed ⟨literals ▸ List.erase_sublist, fun lost inside absent => ?_, redundant⟩
      have isLiteral : lost = literal := by
        by_contra different
        exact absent (literals ▸ (List.mem_erase_of_ne different).2 inside)
      rw [isLiteral, shortens.trail]
      exact falsified
    · have unchanged : after.arena.live? other = engine.arena.live? other := by
        simp only [Arena.live?, shortens.others other same]
      rw [unchanged]
      exact .refl _

/-- A literal of a variable that is still there becomes a fact, unless it is false. -/
theorem assignUnit_ends (inStep : engine.InStep) (positive : 0 < literal.var)
    (inside : literal.var < engine.trail.vars.size) (kept : ¬ engine.trail.Removed literal.var) :
    (assignUnit literal).Ends engine
      (fun _ after => after.InStep ∧ after.arena = engine.arena ∧
        engine.trail.SameFlags after.trail ∧
        ∀ other, other ∈ after.trail.facts ↔ other ∈ engine.trail.facts ∨ other = literal)
      (fun cause _ => cause = .rootConflict literal ∧
        literal.complement ∈ engine.trail.facts) := by
  have found := Trail.literalValue?_of_lt inside
  have looked := literalValue_of_lt inside
  cases value : literal.valueUnder engine.trail.vars[literal.var].value with
  | none =>
    rw [value] at found
    refine (assignUnit_of_open inStep.trail found kept).imp (fun _ after => ?_) fun _ _ no => no.elim
    rintro ⟨trail, tally, changes, pushed, rfl⟩
    refine ⟨inStep.push found pushed rfl rfl rfl, rfl, Trail.sameFlags_push pushed, fun other => ?_⟩
    rw [Trail.facts_push found pushed, List.mem_append, List.mem_singleton]
  | some truth =>
    rw [value] at found looked
    unfold assignUnit
    refine .step looked ?_
    cases truth with
    | false => exact .fail ⟨rfl, inStep.trail.agrees.mem_of_false positive found⟩
    | true =>
      have fact := inStep.trail.agrees.mem_of_true positive found
      refine .pure ⟨inStep, rfl, .refl _, fun other => ⟨.inl, ?_⟩⟩
      rintro (isFact | rfl)
      · exact isFact
      · exact fact

/-- A clause gives its last literal that is not false. -/
theorem propagates_last (live : engine.arena.live? handle = some clause)
    (inside : literal ∈ clause.literals)
    (falsified : ∀ other ∈ clause.literals, other ≠ literal →
      other.complement ∈ engine.trail.facts) :
    Propagates engine.arena.formula engine.factSet literal :=
  .unit (mem_formula_of_live live) inside fun other member different =>
    .assumption (falsified other member different)

/-! ## Walking the lists -/

/-- A computation prunes the engine, or runs into a conflict of unit propagation. -/
def Pruning {α : Type} (body : Run Engine α) (engine : Engine) : Prop :=
  body.Ends engine (fun _ after => Prunes engine after) fun cause _ => engine.Clashes cause

namespace Pruning

variable [Realm] {α β : Type} {body : Run Engine α}

omit [Realm] in
theorem pure {value : α} : Pruning (pure value) engine := Run.Ends.pure .refl

omit [Realm] in
/-- A turn and what comes after it. -/
theorem and_then {next : α → Run Engine β} {post : α → Engine → Prop}
    (turn : body.Ends engine (fun value after => (Prunes engine after ∧ after.InStep) ∧
      post value after) fun cause _ => engine.Clashes cause)
    (rest : ∀ value middle, post value middle → Pruning (next value) middle) :
    Pruning (body >>= next) engine := by
  refine turn.bind fun value middle ⟨⟨prunes, inStep⟩, holds⟩ => ?_
  exact (rest value middle holds).imp (fun _ after further => prunes.trans inStep further)
    fun _ _ clashes => prunes.clashes inStep clashes

/-- A turn that keeps the engine sound, and what comes after it. -/
theorem bind {next : α → Run Engine β} {post : α → Engine → Prop} (prunes : Pruning body engine)
    (works : Works .propagation body engine post) (sound : engine.Sound)
    (rest : ∀ value middle, engine.Leads .propagation middle → middle.Sound → post value middle →
      Pruning (next value) middle) : Pruning (body >>= next) engine := by
  have turn : body.Ends engine (fun value after => (Prunes engine after ∧ after.InStep) ∧
      (engine.Leads .propagation after ∧ post value after)) fun cause _ => engine.Clashes cause :=
    (prunes.and (works sound)).imp
      (fun _ _ ⟨pruned, leads, holds⟩ => ⟨⟨pruned, leads.inStep⟩, leads, holds⟩) fun _ _ => And.left
  exact and_then turn fun value middle ⟨leads, holds⟩ =>
    rest value middle leads (leads.sound sound) holds

end Pruning

/-- A clause with a true literal is removed. -/
theorem pruning_removeClause (inStep : engine.InStep)
    (live : engine.arena.live? handle = some clause) (inside : literal ∈ clause.literals)
    (fact : literal ∈ engine.trail.facts) : Pruning (removeClause handle) engine :=
  (removeClause_ends inStep live).imp (fun _ _ ⟨removes, _⟩ => removes.prunes live inside fact)
    fun _ _ no => no.elim

section Lists

variable [Realm]

/-- A false literal is taken out of a clause. -/
theorem pruning_strengthen (sound : engine.Sound) (strict : ¬ Realm.Lenient)
    (live : engine.arena.live? handle = some clause) (inside : literal ∈ clause.literals)
    (falsified : literal.complement ∈ engine.trail.facts) :
    Pruning (strengthen handle literal) engine := by
  obtain ⟨found, _⟩ := Arena.live?_eq_some.1 live
  have admits := sound.wellFormed.admits _ (Arena.contents_of_live live)
  refine Run.Looks.bind looks_clause fun old lookedUp => ?_
  rw [found, Option.some.injEq] at lookedUp
  subst lookedUp
  split
  next first second pair =>
    -- The other literal of a pair becomes a fact, and the pair goes.
    let unit := if first = literal then second else first
    have member : unit ∈ clause.literals := by
      rw [pair]
      dsimp only [unit]
      split <;> simp
    have rest : ∀ other ∈ clause.literals, other ≠ unit →
        other.complement ∈ engine.trail.facts := by
      intro other isInside different
      suffices same : other = literal from same ▸ falsified
      rw [pair] at inside isInside
      simp only [unit, List.mem_cons, List.not_mem_nil, or_false] at inside isInside different
      split at different <;> grind
    obtain ⟨positive, inTable, kept⟩ := present_of_lookup (admits.present unit member)
    have goesOn : ∀ middle : Engine, middle.InStep ∧ middle.arena = engine.arena ∧
        unit ∈ middle.trail.facts → Pruning (removeClause handle) middle :=
      fun middle ⟨inStep, arena, fact⟩ => pruning_removeClause inStep (arena ▸ live) member fact
    refine Pruning.and_then ((assignUnit_ends sound.toInStep positive inTable (kept.resolve_right strict)).imp ?_ ?_)
      fun _ => goesOn
    · rintro _ middle ⟨inStep, arena, _, facts⟩
      refine ⟨⟨⟨fun other fact => (facts other).2 (.inl fact), fun other fact => ?_, fun other => ?_⟩,
        inStep⟩, inStep, arena, (facts unit).2 (.inr rfl)⟩
      · rcases (facts other).1 fact with old | rfl
        · exact .assumption old
        · exact propagates_last live member rest
      · rw [arena]
        exact .refl _
    · rintro cause _ ⟨isConflict, complement⟩
      refine ⟨⟨unit, isConflict⟩, clause.literals, mem_formula_of_live live, fun other isInside => ?_⟩
      by_cases same : other = unit
      · exact .assumption (same ▸ complement)
      · exact .assumption (rest other isInside same)
  next noPair =>
    have long : 3 ≤ clause.literals.length := by
      have two := admits.two
      by_contra short
      obtain ⟨first, second, pair⟩ := List.length_eq_two.1 (by omega : clause.literals.length = 2)
      exact noPair first second pair
    exact (shorten_ends sound.toInStep live inside long).imp
      (fun _ _ shortens => shortens.prunes live falsified) fun _ _ no => no.elim

/-- Removing satisfied clauses prunes. -/
theorem pruning_removeSatisfied (handles : List Handle) (sound : engine.Sound)
    (fact : literal ∈ engine.trail.facts) : Pruning (removeSatisfied literal handles) engine := by
  induction handles generalizing engine with
  | nil => exact .pure
  | cons handle rest ih =>
    refine Run.Ends.step rfl ?_
    split
    next held =>
      obtain ⟨clause, live, member⟩ := Arena.holds_iff.1 held
      refine (pruning_removeClause sound.toInStep live member fact).bind
        (works_removeClause_of_root live member fact) sound fun _ middle leads soundMiddle _ => ?_
      exact ih soundMiddle (leads.mem_root fact)
    next => exact ih sound fact

/-- Removing false literals prunes. -/
theorem pruning_removeFalsified (handles : List Handle) (sound : engine.Sound)
    (strict : ¬ Realm.Lenient) (falsified : literal.complement ∈ engine.trail.facts) :
    Pruning (removeFalsified literal handles) engine := by
  induction handles generalizing engine with
  | nil => exact .pure
  | cons handle rest ih =>
    refine Run.Ends.step rfl ?_
    split
    next held =>
      obtain ⟨clause, live, member⟩ := Arena.holds_iff.1 held
      refine (pruning_strengthen sound strict live member falsified).bind
        (works_strengthen live member (rup_erase_of_false live falsified)) sound
        fun _ middle leads soundMiddle _ => ?_
      exact ih soundMiddle (leads.mem_root falsified)
    next => exact ih sound falsified

/-- Applying root literals prunes the formula. -/
theorem pruning_applyUnits (fuel : Nat) (sound : engine.Sound) (strict : ¬ Realm.Lenient) :
    Pruning (applyUnits fuel) engine := by
  induction fuel generalizing engine with
  | zero => exact Run.Ends.stop
  | succ fuel ih =>
    refine Run.Ends.step rfl ?_
    split
    next => exact Pruning.pure
    next literal found =>
    have here : engine.trail.literals[engine.applied]? = some literal := found
    have fact : literal ∈ engine.trail.facts := by
      refine sound.due literal (List.mem_iff_getElem?.2 ⟨0, ?_⟩)
      rw [List.getElem?_drop, Nat.add_zero, Array.getElem?_toList, here]
    have positive := (sound.wellFormed.known literal fact).1
    -- The counter is no matter of clauses and facts.
    let counted := { engine with applied := engine.applied + 1 }
    have advanced : Prunes engine counted := .of_same rfl rfl
    refine Run.Ends.step (rfl : _ = Outcome.done () counted) (Run.Ends.imp ?_
      (fun _ _ further => advanced.trans sound.advance.toInStep further)
      fun _ _ clashes => advanced.clashes sound.advance.toInStep clashes)
    refine Run.Looks.bind looks_occurrences fun satisfied _ => ?_
    refine (pruning_removeSatisfied satisfied sound.advance fact).bind
      (works_removeSatisfied satisfied fact) sound.advance fun _ middle leads soundMiddle _ => ?_
    refine Run.Looks.bind looks_occurrences fun falsified _ => ?_
    have still : literal.complement.complement ∈ middle.trail.facts := by
      rw [Literal.complement_complement positive]
      exact leads.mem_root fact
    exact (pruning_removeFalsified falsified soundMiddle strict still).bind
      (works_removeFalsified falsified still) soundMiddle fun _ last _ soundLast _ => ih soundLast

/-! ## Nothing left to apply -/

/-- The complement of a root literal is no root literal. -/
theorem Sound.complement_notMem_facts (sound : engine.Sound) (fact : literal ∈ engine.trail.facts) :
    literal.complement ∉ engine.trail.facts := by
  intro complement
  have positive := (sound.wellFormed.known literal fact).1
  exact Literal.complement_ne positive (List.inj_on_of_nodup_map sound.wellFormed.distinct complement
    fact (Literal.var_complement positive))

namespace Prunes

/-- Where all root literals were applied, clauses lost all their false literals, and
those with a true one are gone. -/
theorem reducesTo (prunes : Prunes before after) (sound : after.Sound)
    (applied : Probing.Applied after)
    (slots : after.arena.slots.size = before.arena.slots.size)
    (epoch : after.arena.epoch = before.arena.epoch) :
    before.arena.ReducesTo after.trail.facts after.arena := by
  have lacks : ∀ {handle clause}, after.arena.live? handle = some clause →
      ∀ literal ∈ clause.literals, ∀ fact ∈ after.trail.facts, literal.var ≠ fact.var :=
    fun live literal inside fact isFact same => applied.unmentioned isFact
      ⟨_, Arena.contents_of_live live, literal, inside, same⟩
  refine ⟨slots, epoch, fun handle old live ⟨literal, inside, fact⟩ => ?_,
    fun handle old live isOpen => ?_, fun handle absent => ?_⟩
  · have fate := prunes.clauses handle
    rw [live] at fate
    cases found : after.arena.live? handle with
    | none => rfl
    | some left =>
      rw [found] at fate
      cases fate with
      | trimmed trims =>
        by_cases stays : literal ∈ left.literals
        · exact absurd rfl (lacks found literal stays literal fact)
        · exact absurd (trims.lost literal inside stays) (sound.complement_notMem_facts fact)
  · have fate := prunes.clauses handle
    rw [live] at fate
    cases found : after.arena.live? handle with
    | none =>
      rw [found] at fate
      cases fate with
      | satisfied inside fact => exact absurd fact (isOpen _ inside)
    | some left =>
      rw [found] at fate
      cases fate with
      | trimmed trims =>
        have admits := sound.wellFormed.admits _ (Arena.contents_of_live found)
        have kept : ∀ literal ∈ left.literals, literal.complement ∉ after.trail.facts := by
          intro literal inside complement
          have sameVar := Literal.var_complement (admits.present literal inside).1
          exact lacks found literal inside _ complement sameVar.symm
        refine ⟨left, rfl, ?_, trims.redundant, admits.two⟩
        have part : left.literals.Sublist
            (old.literals.filter fun literal => literal.complement ∉ after.trail.facts) := by
          rw [← List.filter_eq_self.2 fun literal inside => decide_eq_true (kept literal inside)]
          exact trims.part.filter _
        refine part.eq_of_length_le (List.Subperm.length_le
          (List.subperm_of_subset
          ((Literal.nodup_of_pairwise_lt old.sorted).filter _) fun literal member => ?_))
        obtain ⟨inside, isKept⟩ := List.mem_filter.1 member
        by_contra lost
        exact of_decide_eq_true isKept (trims.lost literal inside lost)
  · have fate := prunes.clauses handle
    rw [absent] at fate
    generalize after.arena.live? handle = found at fate
    cases fate
    rfl

end Prunes

/-- The root literals are the closure of those before under unit propagation, and they
were applied to the clauses. -/
structure Closes (before after : Engine) : Prop where
  root : ∀ literal, literal ∈ after.trail.rootLiterals ↔
    Propagates before.arena.formula before.trail.root literal
  clauses : before.arena.ReducesTo after.trail.rootLiterals after.arena
  applied : after.applied = after.trail.literals.size
  levels : after.trail.levels = #[]

/-- Applying the root literals closes them, unless unit propagation finds a conflict. -/
theorem closes_propagateUnits (sound : engine.Sound) (strict : ¬ Realm.Lenient)
    (settled : engine.Settled) :
    propagateUnits.Finishes engine
      (fun _ after => ¬ Conflicts engine.arena.formula engine.trail.root ∧ engine.Closes after)
      fun cause _ => (∃ literal, cause = .rootConflict literal) ∧
        Conflicts engine.arena.formula engine.trail.root := by
  have sameFacts : engine.factSet = engine.trail.root := by
    unfold factSet Trail.root
    rw [sound.trail.rootLiterals, settled.orderly]
  have prunes : Pruning propagateUnits engine := by
    unfold propagateUnits
    exact Run.Ends.step rfl (pruning_applyUnits _ sound strict)
  have works : Works .propagation propagateUnits engine _ := Probing.works_propagateUnits settled
  refine ⟨((prunes.and (works sound)).and ((tracks_propagateUnits : Tracks SamePlaces _) engine)).imp ?_ ?_,
    safe_propagateUnits sound (.inr settled.orderly)⟩
  · rintro _ after ⟨⟨pruned, leads, applied⟩, places⟩
    have soundAfter : after.Sound := leads.sound sound
    have rootAfter : after.trail.rootLiterals = after.trail.facts := by
      rw [soundAfter.trail.rootLiterals, applied.settled.orderly]
    have reduces := pruned.reducesTo soundAfter applied places.slots places.epoch
    have saturates := sound.toInStep.saturates reduces
    have proper : ∀ literal ∈ {literal | literal ∈ after.trail.facts},
        literal.complement ∉ {literal | literal ∈ after.trail.facts} :=
      fun literal fact => soundAfter.complement_notMem_facts fact
    rw [← sameFacts]
    refine ⟨saturates.not_conflicts proper pruned.facts, fun literal => ?_, rootAfter ▸ reduces, ?_,
      soundAfter.trail.atRoot⟩
    · rw [rootAfter, ← sameFacts]
      exact ⟨pruned.derived literal, saturates.mem_of_propagates proper pruned.facts⟩
    · have inTrail : after.applied ≤ after.trail.facts.length := applied.settled.settles.inTrail
      rw [applied.settled.orderly, Array.length_toList] at inTrail
      exact Nat.le_antisymm inTrail applied.all
  · rintro cause after ⟨⟨clashes, _⟩, _⟩
    exact sameFacts ▸ clashes

end Lists

/-- Applying the root literals terminates. It fails, with a conflict at the root, if and
only if unit propagation on the root literals and the live clauses finds a conflict.
Otherwise the root literals become the closure, all of them were applied, and the
clauses are, slot by slot, what the closure leaves of them. -/
theorem propagateUnits_computes_closure (ready : engine.Ready)
    (kept : ∀ clause ∈ engine.arena.liveClauses, ∀ literal ∈ clause.literals,
      ¬ engine.trail.Removed literal.var) :
    propagateUnits.Finishes engine
      (fun _ after => ¬ Conflicts engine.arena.formula engine.trail.root ∧ engine.Closes after)
      fun cause _ => (∃ literal, cause = .rootConflict literal) ∧
        Conflicts engine.arena.formula engine.trail.root :=
  let _ : Realm := .rootLenient
  closes_propagateUnits (ready.rootSound kept) id ready.settled

/-- Two units that were read in take a third one and leave one of four clauses. -/
theorem propagateUnits_computes_closure_chain :
    ∃ engine after : Engine, engine.Ready ∧
      (∀ clause ∈ engine.arena.liveClauses, ∀ literal ∈ clause.literals,
        ¬ engine.trail.Removed literal.var) ∧
      propagateUnits engine = .done () after ∧
      after.trail.rootLiterals.map Literal.toInt = [1, -3, 2] ∧
      after.clausesAsInts = [[4, 5]] ∧
      ¬ Conflicts engine.arena.formula engine.trail.root ∧ engine.Closes after := by
  obtain ⟨_, start, made, isOpen, _, after, ended, root, clauses⟩ :
      (Simplifier.addClauses [[-1, 2, 3], [-2, -1, 4, 5], [2, 4, -6], [3, 1, 6], [1], [-3]]).Returns
        (.ofVars {} 6) fun _ start => start.engine.unsat = false ∧
          propagateUnits.Returns start.engine fun _ after =>
            after.trail.rootLiterals.map Literal.toInt = [1, -3, 2] ∧
            after.clausesAsInts = [[4, 5]] := by
    decide +kernel
  obtain ⟨ready, kept⟩ := Simplifier.ready_of_ofClauses made (by decide) isOpen
  exact ⟨start.engine, after, ready, kept, ended, root, clauses,
    (propagateUnits_computes_closure ready kept).ends.done_of_eq ended⟩

end Engine

end CnfSimplifier
