import CnfSimplifier.Proofs.ComponentPartition
import CnfSimplifier.Proofs.Extension
import CnfSimplifier.Proofs.KeptEquivalence
import CnfSimplifier.Proofs.SubstitutionSafety

/-!
# Substituting equivalent literals is exact

Once the root literals are applied, the live irredundant clauses of two literals make a
graph. In each of its components of at least two literals the least protected one, or the
least one if none is protected, stands for the others; the components of the complements
have the complements. Exactly the others that may go are substituted, and no clause
mentions them any more.

What is left, redundant clauses included, says of an assignment what was said before of
the one in which every substituted literal has the value of the literal that stands for
it. This is the assignment that replaying the new records gives.
-/
namespace CnfSimplifier

instance {trail : Trail} {name : Nat} : Decidable (trail.Substituted name) :=
  decidable_of_iff ((trail.flags? name).any VarFlags.substituted = true) (by
    rw [Option.any_eq_true]
    rfl)

namespace Engine

variable {engine after : Engine}

/-- The assignment in which the literals that were substituted in between have the value
of the literals that stand for them. -/
def given (stands : Literal → Literal) (before after : Engine) (values : Assignment) :
    Assignment := fun name =>
  if after.trail.Substituted name ∧ ¬ before.trail.Substituted name then
    decide ((stands (Literal.ofVar name true)).Holds values)
  else values name

/-- Equivalent literals gave way to one that stands for them. In between the root literals
were applied. -/
structure Merges (before applied : Engine) (stands : Literal → Literal) (after : Engine) :
    Prop where
  represents : ∀ literal, Represents applied.trail.Frozen applied.Links literal (stands literal)
  mirrored : ∀ literal, 0 < literal.var → stands literal.complement = (stands literal).complement
  /-- In a component of at least two literals all go that may, but for the one that stands
  for them. -/
  substituted_iff : ∀ a b, a ≠ b → Equivalent applied.Links a b →
    (after.trail.Substituted a.var ↔ applied.isRemovable? a.var = some true ∧ stands a ≠ a)
  /-- No other variables are substituted. -/
  others : ∀ name, (∀ a b, a.var = name → a ≠ b → ¬ Equivalent applied.Links a b) →
    (after.trail.Substituted name ↔ before.trail.Substituted name)
  unmentioned : ∀ clause ∈ after.arena.liveClauses, ∀ literal ∈ clause.literals,
    ¬ after.trail.Substituted literal.var
  satisfied_iff : ∀ values, after.Satisfied values ↔ before.Satisfied (given stands before after values)
  /-- Replaying the new records, last first, gives substituted literals their values. -/
  replays : ∃ records, after.records = before.records.pushAll records ∧
    ∀ values model, Shows before.numVars values model →
      ∃ table, Reconstruction.replayAll records.reverse model = some table ∧
        Shows before.numVars (given stands before after values) table

end Engine

namespace Equivalence

variable {engine applied built after : Engine} {graph : Implications}
  {targets : List (Literal × Literal)} {stands : Literal → Literal}

/-! ## Representatives of targets -/

/-- No literal of a graph of binary clauses is equivalent to its complement, as far as
components of at least two literals show. -/
theorem Gives.proper_all (gives : Gives graph engine targets) {literal : Literal}
    (present : 0 < literal.var) : ∀ other, Equivalent graph.Edge literal other →
      ¬ Equivalent graph.Edge literal other.complement := by
  by_cases alone : ∀ other, Equivalent graph.Edge literal other → other = literal
  · intro other equivalent opposite
    obtain rfl := alone other equivalent
    exact Literal.complement_ne present (alone _ opposite)
  · push Not at alone
    obtain ⟨mate, equivalent, different⟩ := alone
    exact gives.proper literal mate different.symm equivalent

/-- Whether two components are equal or mirror images, their literals are represented
accordingly. -/
theorem Gives.mirrored (gives : Gives graph engine targets) (skew : Skew graph.Edge)
    {literal : Literal} (present : 0 < literal.var)
    (represents : ∀ literal, Represents engine.trail.Frozen graph.Edge literal (stands literal)) :
    stands literal.complement = (stands literal).complement :=
  (represents _).unique ((represents literal).complement skew present (gives.proper_all present))

/-- A target, and its complement, are represented as the target says. -/
theorem Gives.stands_eq (gives : Gives graph engine targets) (skew : Skew graph.Edge)
    (represents : ∀ literal, Represents engine.trail.Frozen graph.Edge literal (stands literal))
    {pair : Literal × Literal} (member : pair ∈ targets) :
    stands pair.1 = pair.2 ∧ stands pair.1.complement = pair.2.complement := by
  have own : stands pair.1 = pair.2 := (represents _).unique (gives.represents pair member)
  exact ⟨own, by rw [gives.mirrored skew (gives.source pair member) represents, own]⟩

/-- Unwinding the records of all targets gives each of them the value of the literal that
stands for it. -/
theorem Gives.unwind_eq (gives : Gives graph engine targets) (skew : Skew graph.Edge)
    (represents : ∀ literal, Represents engine.trail.Frozen graph.Edge literal (stands literal))
    (between : ∀ name, after.trail.Substituted name ∧ ¬ applied.trail.Substituted name ↔
      ∃ pair ∈ targets, pair.1.var = name) (values : Assignment) :
    unwind (targets.flatMap recordsOf) values = Engine.given stands applied after values := by
  funext name
  unfold Engine.given
  by_cases isTarget : ∃ pair ∈ targets, pair.1.var = name
  · rw [if_pos ((between name).2 isTarget)]
    obtain ⟨pair, member, rfl⟩ := isTarget
    have source := gives.source pair member
    have equal := holds_unwind_targets gives.source gives.stands gives.distinct gives.stays values
      pair member
    rw [holds_unwind_of_spared gives.source (gives.stays pair member)] at equal
    obtain ⟨own, opposite⟩ := gives.stands_eq skew represents member
    unfold Literal.Holds at equal
    cases sign : pair.1.isPositive with
    | true =>
      have positive : Literal.ofVar pair.1.var true = pair.1 := sign ▸ Literal.ofVar_var source
      rw [sign] at equal
      rw [positive, own, Bool.eq_iff_iff, equal, decide_eq_true_iff]
      rfl
    | false =>
      have negative : Literal.ofVar pair.1.var true = pair.1.complement := by
        have back := @Literal.ofVar_var pair.1.complement (by rwa [Literal.var_complement source])
        rwa [Literal.var_complement source, Literal.isPositive_complement source, sign] at back
      rw [sign] at equal
      rw [negative, opposite, Bool.eq_iff_iff, decide_eq_true_iff,
        Literal.holds_complement (gives.stands pair member), Literal.Holds, ← equal,
        Bool.not_eq_false]
  · rw [if_neg (mt (between name).1 isTarget)]
    refine unwind_of_not_chosen fun record member => ?_
    obtain ⟨pair, inTargets, isRecord⟩ := List.mem_flatMap.1 member
    rw [chosen_of_recordsOf (gives.source pair inTargets) isRecord]
    exact fun same => isTarget ⟨pair, inTargets, same⟩

/-- No literal of the variable of a target stands for itself. -/
theorem Gives.moves (gives : Gives graph engine targets) (skew : Skew graph.Edge)
    (represents : ∀ literal, Represents engine.trail.Frozen graph.Edge literal (stands literal))
    {pair : Literal × Literal} (member : pair ∈ targets) {literal : Literal}
    (sameVar : pair.1.var = literal.var) : stands literal ≠ literal := by
  intro own
  have source := gives.source pair member
  have apart := gives.stays pair member pair member
  obtain ⟨first, second⟩ := gives.stands_eq skew represents member
  rcases Literal.eq_or_eq_complement source sameVar.symm with rfl | rfl
  · exact apart (congrArg Literal.var (own.symm.trans first))
  · have same := congrArg Literal.var (own.symm.trans second)
    rw [Literal.var_complement source, Literal.var_complement (gives.stands pair member)] at same
    exact apart same

/-- In a component of at least two literals the targets are those that may go and do not stand
for themselves. -/
theorem Gives.isTarget_iff (gives : Gives graph engine targets) (skew : Skew graph.Edge)
    (represents : ∀ literal, Represents engine.trail.Frozen graph.Edge literal (stands literal))
    {a b : Literal} (different : a ≠ b) (equivalent : Equivalent graph.Edge a b) :
    (∃ pair ∈ targets, pair.1.var = a.var) ↔
      engine.isRemovable? a.var = some true ∧ stands a ≠ a := by
  constructor
  · rintro ⟨pair, member, sameVar⟩
    exact ⟨sameVar ▸ gives.removable pair member, gives.moves skew represents member sameVar⟩
  · rintro ⟨removable, moves⟩
    refine (gives.complete a b different equivalent removable).resolve_left fun own => ?_
    exact moves ((represents a).unique own)

/-- The records of the targets can be replayed. -/
theorem Gives.replays (gives : Gives graph engine targets) {count : Nat}
    (numVars : engine.numVars = count) {values : Assignment} {model : Model}
    (shows : Shows count values model) :
    ∃ table, Reconstruction.replayAll (targets.flatMap recordsOf).reverse model = some table ∧
      Shows count (unwind (targets.flatMap recordsOf) values) table := by
  refine Reconstruction.replayAll_shows shows fun record member literal inside => ?_
  obtain ⟨pair, inTargets, isRecord⟩ := List.mem_flatMap.1 member
  have source := gives.source pair inTargets
  have stands := gives.stands pair inTargets
  obtain ⟨first, second⟩ := gives.inRange pair inTargets
  rcases var_of_recordsOf source stands isRecord inside with same | same
  · exact ⟨same ▸ source, by omega⟩
  · exact ⟨same ▸ stands, by omega⟩

/-! ## What a run comes to -/

/-- Targets that were substituted after the root literals were applied were merged. -/
theorem Gives.merges [Realm] {before : Engine} (strict : ¬ Realm.Lenient) (sound : before.Sound)
    (orderly : before.trail.Orderly) (leads : before.Leads .propagation applied)
    (isApplied : Probing.Applied applied)
    (made : Engine.implications applied = .done graph built) (gives : Gives graph built targets)
    (substitutes : Substitutes targets built after) (soundAfter : after.Sound)
    (orderlyAfter : after.trail.Orderly) : ∃ stands, before.Merges applied stands after := by
  have soundApplied : applied.Sound := leads.sound sound
  have builds : Works .propagation Engine.implications applied _ := Engine.works_implications
  obtain ⟨_, same, reflects, _⟩ := (builds soundApplied).done_of_eq made
  have edges := Engine.edge_of_implications soundApplied isApplied made
  have skew := skew_of_reflects reflects
  -- Making the graph leaves all but the source of chance.
  obtain ⟨random, rfl⟩ : ∃ random, built = { applied with random := random } := ⟨_, same⟩
  have flags : ∀ name, before.trail.Substituted name ↔ applied.trail.Substituted name :=
    fun name => (Trail.substituted_congr ((leads.retains (by decide)).flags.flags name)).symm
  have removed : ∀ {name}, applied.isRemovable? name = some true →
      ¬ applied.trail.Substituted name := fun removable substituted =>
    (Engine.removable_of_isRemovable? removable).kept substituted.removed
  have between : ∀ name, after.trail.Substituted name ∧ ¬ before.trail.Substituted name ↔
      ∃ pair ∈ targets, pair.1.var = name := by
    intro name
    rw [substitutes.substituted, flags]
    constructor
    · exact fun ⟨either, earlier⟩ => either.resolve_right earlier
    · rintro ⟨pair, member, rfl⟩
      exact ⟨.inl ⟨pair, member, rfl⟩, removed (gives.removable pair member)⟩
  choose stands represents using
    Represents.exists_stands applied.trail.Frozen graph.Edge
  refine ⟨stands, ?_⟩
  constructor
  case represents => exact edges ▸ represents
  case mirrored => exact fun literal present => gives.mirrored skew present represents
  case substituted_iff =>
    intro a b different equivalent
    rw [← edges] at equivalent
    have present := reflects.present_of_path equivalent.2 different.symm
    have open_ : ¬ applied.trail.Substituted a.var := fun substituted =>
      (present.2.2.1.resolve_right strict) substituted.removed
    rw [substitutes.substituted, or_iff_left (by exact open_)]
    exact gives.isTarget_iff skew represents different equivalent
  case others =>
    intro name alone
    rw [substitutes.substituted, flags, or_iff_right]
    rintro ⟨pair, member, rfl⟩
    refine alone pair.1 pair.2 rfl ?_ (edges ▸ (gives.represents pair member).equivalent)
    exact fun same => gives.stays pair member pair member (congrArg Literal.var same)
  case unmentioned =>
    intro clause live literal inside substituted
    have present := (soundAfter.wellFormed.admits _ (Arena.literals_mem_contents live)).present
      literal inside
    exact (present.2.2.1.resolve_right strict) substituted.removed
  case satisfied_iff =>
    intro values
    have facts : before.trail.facts = before.trail.rootLiterals :=
      orderly.trans sound.trail.rootLiterals.symm
    have factsAfter : after.trail.facts = after.trail.rootLiterals :=
      orderlyAfter.trans soundAfter.trail.rootLiterals.symm
    rw [← gives.unwind_eq skew represents between, ← Engine.holds_picture_iff factsAfter,
      ← Engine.holds_picture_iff facts, substitutes.holds_iff]
    exact ⟨Steps.back leads.steps (by decide), Steps.holds leads.steps sound.wellFormed⟩
  case replays =>
    refine ⟨targets.flatMap recordsOf, ?_, fun values model shows => ?_⟩
    · rw [substitutes.records, ← (leads.retains (by decide)).records]
    · rw [← gives.unwind_eq skew represents between]
      exact gives.replays (Steps.numVars_eq leads.steps) shows

/-- Once the root literals are applied, the search for components uses up its steps. -/
def GivesUp (engine : Engine) (budget : Budget) : Prop :=
  ∃ applied graph built later, Engine.propagateUnits engine = .done () applied ∧
    Engine.implications applied = .done graph built ∧
    graph.components built.interrupted budget = .done none later ∧ later.isExhausted = true

/-- Equivalent literals gave way once the root literals were applied. -/
def Merged (before after : Engine) : Prop :=
  ∃ applied stands, Engine.propagateUnits before = .done () applied ∧
    before.Merges applied stands after

/-- A run merges equivalent literals, unless it gives up the search. -/
theorem run_merges [Realm] {state : Tool Unit × Engine} (strict : ¬ Realm.Lenient)
    (sound : state.2.Sound) (orderly : state.2.trail.Orderly) (settled : state.2.Settled) :
    run.Ends state (fun _ after => GivesUp state.2 state.1.budget ∨ Merged state.2 after.2)
      fun cause _ => cause.isUnsat = true := by
  have works : Works .removal run state _ := works_run
  refine (works sound).imp ?_ fun cause after fails => ?_
  · rintro _ after ⟨leads, applied, graph, built, propagated, made, how⟩
    have propagates : Works .propagation Engine.propagateUnits state.2 _ :=
      Probing.works_propagateUnits settled
    obtain ⟨leadsApplied, isApplied⟩ := (propagates sound).done_of_eq propagated
    rcases how with ⟨_, last, searched⟩ | ⟨targets, gives, substitutes⟩
    · unfold findComponents at searched
      dsimp only at searched
      split at searched
      next found later ended =>
        cases searched
        exact .inl ⟨applied, graph, built, later, propagated, made, ended,
          Implications.components_gives_up.done_of_eq ended rfl⟩
      next => cases searched
      next => cases searched
    · obtain ⟨stands, merges⟩ := gives.merges strict sound orderly leadsApplied isApplied made
        substitutes (leads.sound sound) (leads.orderly orderly)
      exact .inr ⟨applied, stands, propagated, merges⟩
  · exact (fails.reason.resolve_right fun ⟨lenient, _⟩ => strict lenient).1

/-- The substitution of equivalent literals is exact. It can lack nothing but names for
clauses. If it says that the formula has no model, then there was none. Otherwise equivalent
literals gave way, unless the steps for the search were used up. -/
theorem merged_of_process {engine : Engine} (ready : engine.Ready)
    (kept : ∀ clause ∈ engine.arena.liveClauses, ∀ literal ∈ clause.literals,
      ¬ engine.trail.Removed literal.var) (tool : Tool Unit) :
    process.Safe (fun why => why = .outOfSpace ∧ UInt32.size ≤ 2 * engine.arena.slots.size)
        (tool, engine) ∧
      process.Ends (tool, engine) (fun status after =>
        (status = .unsat → ∀ values, ¬ engine.Satisfied values) ∧
          (status ≠ .unsat →
            ¬ GivesUp engine (tool.budget.start (engine.stepLimit engine.settings.equivalenceSteps)) →
            Merged engine after.2)) fun _ _ => False := by
  let _ : Realm := .rootLenient
  have sound : engine.Sound := ready.rootSound kept
  refine ⟨Work.safe_process fun started _ _ => ?_, ?_⟩
  · refine safe_run id (by exact sound) ready.orderly ?_
    exact (Nat.lt_or_ge _ _).imp_right fun many => ⟨rfl, many⟩
  let budget := tool.budget.start (engine.stepLimit engine.settings.equivalenceSteps)
  have merges : process.Ends (tool, engine) (fun status after => status ≠ .unsat →
      ∃ notices last, (GivesUp engine budget ∨ Merged engine last) ∧
        after.2 = { last with notices := notices }) fun _ _ => False := by
    have ends : ∀ started : Tool Unit, started.own = tool.own → started.budget = budget →
        run.Ends (started, engine) (fun _ after => GivesUp engine budget ∨ Merged engine after.2)
          fun cause _ => cause.isUnsat = true := by
      intro started _ same
      rw [← same]
      exact run_merges id (by exact sound) ready.orderly ready.settled
    exact @Work.process_ends_of_body _ _ _ _ _
      (fun _ after => GivesUp engine budget ∨ Merged engine after) ends
  have concludes : process.Ends (tool, engine) _ _ := process_ends sound
  refine (merges.and concludes).imp ?_ fun _ _ => And.left
  rintro status ⟨_, after⟩ ⟨merged, concludes⟩
  refine ⟨?_, fun isOpen searched => ?_⟩
  · rintro rfl values satisfied
    obtain ⟨_, refutes⟩ := (concludes.of_strict id).resolve_left fun ⟨isOpen, _⟩ => isOpen rfl
    obtain ⟨picture, steps, refuted, _⟩ := refutes.refuted
    exact refuted.not_satisfiable (Steps.wellFormed steps sound.wellFormed).overVars
      (Steps.holds steps sound.wellFormed ((Engine.holds_picture_iff ready.facts).2 satisfied))
  · obtain ⟨notices, last, either, rfl⟩ := merged isOpen
    obtain ⟨applied, stands, propagated, merges⟩ := either.resolve_left searched
    obtain ⟨represents, mirrored, substituted, others, unmentioned, satisfied, replays⟩ := merges
    exact ⟨applied, stands, propagated, represents, mirrored, substituted, others, unmentioned,
      satisfied, replays⟩

/-- Of two variables with the same value the second one goes. -/
theorem merged_of_process_two :
    ∃ (engine after : Engine) (tool toolAfter : Tool Unit) (status : Status), engine.Ready ∧
      (∀ clause ∈ engine.arena.liveClauses, ∀ literal ∈ clause.literals,
        ¬ engine.trail.Removed literal.var) ∧
      process (tool, engine) = .done status (toolAfter, after) ∧ status ≠ .unsat ∧
      ¬ GivesUp engine (tool.budget.start (engine.stepLimit engine.settings.equivalenceSteps)) ∧
      after.trail.Substituted 2 ∧
      after.arena.liveClauses.map (fun clause => clause.literals.map Literal.toInt) =
        [[1, 3], [-1, -3, 4]] ∧
      Merged engine after := by
  obtain ⟨_, start, made, wasOpen, ⟨status, ⟨toolAfter, after⟩, ended, merged⟩, _, applied,
      propagated, graph, built, implied, components, _, searched, found⟩ :
      (Simplifier.addClauses [[-1, 2], [-2, 1], [2, 3], [-2, -3, 4]]).Returns (.ofVars {} 4)
        fun _ start => start.engine.unsat = false ∧
          (process.Returns (start.tools.equivalences, start.engine) fun status after =>
            decide (status ≠ .unsat ∧ after.2.trail.Substituted 2 ∧
              after.2.arena.liveClauses.map (fun clause => clause.literals.map Literal.toInt) =
                [[1, 3], [-1, -3, 4]])) ∧
          Engine.propagateUnits.Returns start.engine fun _ applied =>
            Engine.implications.Returns applied fun graph built =>
              (graph.components built.interrupted).Returns (start.tools.equivalences.budget.start
                (start.engine.stepLimit start.engine.settings.equivalenceSteps))
                  fun components _ => components.isSome := by
    decide +kernel
  obtain ⟨isOpen, substituted, clauses⟩ := of_decide_eq_true merged
  obtain ⟨ready, kept⟩ := Simplifier.ready_of_ofClauses made (by decide) wasOpen
  have answered : ¬ GivesUp start.engine (start.tools.equivalences.budget.start
      (start.engine.stepLimit start.engine.settings.equivalenceSteps)) := by
    rintro ⟨_, _, _, _, again, impliedAgain, none, _⟩
    cases propagated.symm.trans again
    cases implied.symm.trans impliedAgain
    cases searched.symm.trans none
    cases found
  have ends := (merged_of_process ready kept start.tools.equivalences).2.done_of_eq ended
  exact ⟨start.engine, after, _, toolAfter, status, ready, kept, ended, isOpen, answered,
    substituted, clauses, ends.2 isOpen answered⟩

end Equivalence

end CnfSimplifier
