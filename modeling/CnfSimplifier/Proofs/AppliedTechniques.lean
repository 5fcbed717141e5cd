import CnfSimplifier.Proofs.AppliedUnits
import CnfSimplifier.Proofs.Runs
import CnfSimplifier.Proofs.ComposedTechniques

/-!
# Techniques leave no root literal to apply

A technique applies the root literals first. Whatever it assigns afterwards it applies
as well before it is done: subsumption after each clause of its queue, elimination after
each variable whose trial touched others, probing after each variable, and the rest at
the end.

So a technique that does not refute the formula leaves none to apply, and unit
propagation finds no conflict in the formula it started from.
-/
namespace CnfSimplifier

/-- No root literal is left to apply, and unit propagation found no conflict in the
formula as it was before. -/
structure Engine.Clears (before after : Engine) : Prop where
  current : after.Current
  consistent : ¬ Rup before.picture.formula []

/-! ## Conclusions -/

section Conclusions

variable {τ : Type} {before after : Engine} {result : Except Error Unit}

/-- What is known after an attempt to clear a formula. -/
def Engine.TriesClearing (before : Engine) (result : Except Error Unit) (after : Engine) : Prop :=
  match result with
  | .ok () => before.Clears after
  | .error cause => cause.isUnsat = true

/-- The conclusion is that the formula is refuted, or that it was cleared. -/
theorem Engine.conclude_clears (tried : before.TriesClearing result after) :
    (conclude result).Ends after (fun _ final => final.unsat = false → before.Clears final)
      fun _ _ => False := by
  match result, tried with
  | .ok (), clears => exact .of_done rfl fun _ => clears
  | .error cause, isUnsat =>
    have isUnsat : cause.isUnsat = true := isUnsat
    unfold conclude
    dsimp only
    rw [if_pos isUnsat]
    apply Run.Ends.step rfl
    by_cases already : after.unsat = true
    · rw [if_pos already]
      refine .step rfl (.pure fun isOpen => ?_)
      rw [already] at isOpen
      cases isOpen
    · rw [if_neg already]
      exact .step rfl (.step rfl (.pure nofun))

variable [Realm] {scope : Scope}

/-- Where no removed variable can be in the way, a computation that works fails only if the
formula is refuted. -/
theorem Works.refuses {σ α : Type} [HasEngine σ] {body : Run σ α} {state : σ}
    {post : α → σ → Prop} (works : Works scope body state post)
    (sound : (engineOf state).Sound) (strict : ¬ Realm.Lenient) :
    body.Ends state (fun _ _ => True) fun cause _ => cause.isUnsat = true := by
  refine (works sound).imp (fun _ _ _ => trivial) fun cause after fails => ?_
  rcases fails.reason with ⟨isUnsat, _⟩ | ⟨lenient, _⟩
  · exact isUnsat
  · exact absurd lenient strict

/-- A computation that clears the formula is attempted. -/
theorem Works.attempt_clears {σ : Type} [HasEngine σ] {body : Run σ Unit} {state : σ}
    {post : Unit → σ → Prop} {failed : Error → σ → Prop} (works : Works scope body state post)
    (sound : (engineOf state).Sound) (strict : ¬ Realm.Lenient)
    (clears : body.Ends state (fun _ after => (engineOf state).Clears (engineOf after))
      fun _ _ => True) :
    body.attempt.Ends state
      (fun result after => (engineOf state).TriesClearing result (engineOf after)) failed :=
  .attempt ((clears.and (works.refuses sound strict)).imp (fun _ _ => And.left)
    fun _ _ => And.right)

/-- A technique whose body clears the formula clears it, or it refutes it. -/
theorem Work.process_clears {base : Settings → UInt64} {body : Work τ Unit}
    {notice : Nat → Engine → Budget → Engine → Notice} {state : Tool τ × Engine}
    (sound : state.2.Sound) (strict : ¬ Realm.Lenient)
    (works : ∀ tool, Works scope body (tool, state.2) fun _ _ => True)
    (clears : ∀ tool, body.Ends (tool, state.2) (fun _ after => state.2.Clears after.2)
      fun _ _ => True) :
    (Work.process base body notice).Ends state
      (fun _ after => after.2.unsat = false → state.2.Clears after.2) fun _ _ => False := by
  obtain ⟨tool, engine⟩ := state
  unfold Work.process
  refine .step rfl (.step rfl (.step rfl ?_))
  refine .bind ((works _).attempt_clears sound strict (clears _)) fun result after tried => ?_
  refine .step rfl (.step rfl (.step rfl ?_))
  refine .within rfl (Engine.conclude_clears ?_)
  cases result with
  | ok done => exact ⟨tried.current, tried.consistent⟩
  | error cause => exact tried

/-- Applying the root literals clears the formula. -/
theorem Engine.propagateUnits_clears {engine : Engine} (sound : engine.Sound)
    (settled : engine.Settled) :
    propagateUnits.Ends engine (fun _ after => engine.Clears after) fun _ _ => True :=
  ((settling_propagateUnits engine).and (propagateUnits_consistent sound settled)).imp
    (fun _ _ both => ⟨both.1, both.2⟩) fun _ _ _ => trivial

/-- Work that begins with the root literals and leaves none to apply clears the
formula. -/
theorem Work.clears_of_propagateUnits {next : Unit → Work τ Unit} {state : Tool τ × Engine}
    (sound : state.2.Sound) (settled : state.2.Settled)
    (settling : Settling ((liftM Engine.propagateUnits : Work τ Unit) >>= next)) :
    ((liftM Engine.propagateUnits : Work τ Unit) >>= next).Ends state
      (fun _ after => state.2.Clears after.2) fun _ _ => True := by
  have consistent : ((liftM Engine.propagateUnits : Work τ Unit) >>= next).Ends state
      (fun _ _ => ¬ Rup state.2.picture.formula []) fun _ _ => True := by
    refine .bind (Run.Ends.lift (Engine.propagateUnits_consistent sound settled)) ?_
    rintro _ after ⟨_, fine⟩
    exact Run.Ends.trivial.imp (fun _ _ _ => fine) fun _ _ => id
  exact ((settling state).and consistent).imp (fun _ _ both => ⟨both.1, both.2⟩)
    fun _ _ _ => trivial

omit [Realm] in
/-- Closing a computation keeps what does not depend on the closing. -/
theorem ends_closed {σ : Type} {body closing : Run σ Unit} {state : σ} {holds : σ → Prop}
    (ends : body.Ends state (fun _ after => holds after) fun _ _ => True)
    (kept : ∀ after, holds after → closing.Ends after (fun _ last => holds last) fun _ _ => True) :
    (do
      let result ← body.attempt
      closing
      match result with
      | .ok () => pure ()
      | .error cause => Run.fail cause).Ends state (fun _ after => holds after)
      fun _ _ => True := by
  let ended (result : Except Error Unit) (last : σ) : Prop :=
    match result with
    | .ok () => holds last
    | .error _ => True
  have attempted : body.attempt.Ends state ended fun _ _ => True :=
    .attempt (ends.imp (fun _ _ held => held) fun _ _ _ => trivial)
  refine attempted.bind fun result after held => ?_
  cases result with
  | ok done => exact .bind (kept after held) fun _ last held => .pure held
  | error cause => exact .bind .trivial fun _ _ _ => .fail trivial

end Conclusions

/-! ## Unit propagation -/

/-- Unit propagation clears the formula, or it refutes it. -/
theorem Units.process_clears [Realm] {state : Tool Unit × Engine} (sound : state.2.Sound)
    (strict : ¬ Realm.Lenient) (settled : state.2.Settled) :
    Units.process.Ends state (fun _ after => after.2.unsat = false → state.2.Clears after.2)
      fun _ _ => False := by
  obtain ⟨tool, engine⟩ := state
  unfold Units.process
  refine .step rfl (.step (Work.cancelToRoot_of_sound sound) (.step rfl ?_))
  have works : Works .propagation Engine.propagateUnits engine _ := Engine.works_propagateUnits
  have tried : Engine.propagateUnits.attempt.Ends engine _ fun _ _ => False :=
    works.attempt_clears sound strict (Engine.propagateUnits_clears sound settled)
  refine .bind (Run.Ends.lift tried) ?_
  rintro result after ⟨_, tried⟩
  refine .step rfl (.step rfl ?_)
  refine .within rfl (Engine.conclude_clears ?_)
  cases result with
  | ok done => exact ⟨tried.current, tried.consistent⟩
  | error cause => exact tried

/-! ## Binary clauses -/

/-- The last thing that is done about binary clauses is unit propagation. -/
theorem TwoSat.settling_run : Settling TwoSat.run := by
  refine .first (.lift Engine.settling_propagateUnits) fun _ =>
    .bind (.of_tracks (.lift Engine.tracks_implications)) fun graph => ?_
  split
  · exact .pure
  · refine .bind (.of_tracks made_solveWithin.tracks) fun answer => ?_
    apply Settling.steady
    split
    · exact .last fun _ => .fail
    · refine .last fun _ => ?_
      split
      · exact .last fun _ => .last fun _ => .lift Engine.settling_propagateUnits
      · exact .lift Engine.settling_propagateUnits

/-! ## Equivalent literals -/

namespace Equivalence

/-- A literal is assigned only to refute the formula. -/
theorem steady_chooseAll (components : List (List Literal)) (substitution : Substitution) :
    Steady (chooseAll components substitution) := by
  induction components generalizing substitution with
  | nil => exact .pure
  | cons component rest ih =>
    unfold chooseAll
    dsimp only
    split
    · exact Settling.steady (.last fun _ => .fail)
    · split
      · exact ih _
      · refine .after .access fun handled => ?_
        split
        · exact ih _
        · exact .after .read fun _ => .after .read fun _ => ih _

/-- After a substitution the root literals are applied. -/
theorem settling_run : Settling run := by
  refine .first (.lift Engine.settling_propagateUnits) fun _ =>
    .bind (.of_tracks (.lift Engine.tracks_implications)) fun graph => ?_
  split
  · exact .pure
  · refine .bind (.of_tracks made_findComponents.tracks) fun found => ?_
    split
    · exact .pure
    · refine .after (.lift Engine.leaves_look) fun _ => .bind (.lift (steady_chooseAll _ _))
        fun substitution => ?_
      split
      · exact .pure
      · exact Settling.steady (.last fun _ => .lift Engine.settling_propagateUnits)

end Equivalence

/-! ## Subsumption -/

namespace Subsumer

/-- Whatever a clause was good for, the root literals found are applied. -/
theorem settling_simplifyClause {handle : Handle} : Settling (simplifyClause handle) := by
  refine .last fun gone => ?_
  split
  · exact .lift Engine.settling_propagateUnits
  · refine .last fun _ => .last fun clause => ?_
    split
    · exact .lift Engine.settling_propagateUnits
    · exact .last fun _ => .last fun _ => .lift Engine.settling_propagateUnits

/-- After each clause of the queue the root literals are applied. -/
theorem steady_drainLoop (fuel : Nat) : Steady (drainLoop fuel) := by
  induction fuel with
  | zero => exact .stop
  | succ fuel ih =>
    refine .after Work.leaves_own fun own => ?_
    split
    · exact .pure
    · refine .after Work.leaves_modifyOwn fun _ =>
        .after (.lift Engine.leaves_look) fun found => ?_
      split
      · exact ih
      next clause =>
        refine .bind (.of_tracks (.lift made_unqueue.tracks)) fun _ => ?_
        split
        · exact ih
        · refine .after Work.leaves_spend fun goOn => ?_
          split
          · refine .after (.lift Engine.leaves_look) fun limit => ?_
            split
            · exact .bind (.of_tracks (.lift made_settle.tracks)) fun _ => ih
            · exact .bind settling_simplifyClause.steady fun _ => ih
          · exact .pure

theorem steady_drain : Steady drain :=
  .after Work.leaves_own fun _ => .after (.lift Engine.leaves_look) fun _ =>
    .bind (steady_drainLoop _) fun _ => .after Work.leaves_own fun _ =>
    .of_tracks (.bind (.forM fun _ => .lift made_unqueue.tracks) fun _ => .of_leaves Work.leaves_modifyOwn)

/-- Working the queue off again and again is steady. -/
theorem steady_exhaust (fuel : Nat) : Steady (exhaust fuel) := by
  induction fuel with
  | zero => exact .stop
  | succ fuel ih =>
    refine .bind (.of_tracks made_gather.tracks) fun _ => .after Work.leaves_own fun own => ?_
    split
    · exact .pure
    · refine .after Work.leaves_budget fun budget => ?_
      split
      · exact .pure
      · exact .bind steady_drain fun _ => ih

/-- Subsumption starts with the root literals and leaves none to apply. -/
theorem settling_run : Settling run := by
  have exhausts : Steady (do
      let literals ← Engine.look Engine.liveLiterals
      exhaust (literals + 3) : Work Subsumer Unit) :=
    .after (.lift Engine.leaves_look) fun _ => steady_exhaust _
  refine .first (.lift Engine.settling_propagateUnits) fun _ =>
    .after (.lift Engine.leaves_look) fun binary => ?_
  split
  · exact exhausts
  · exact .bind (.of_tracks (.lift Engine.tracks_implications)) fun _ =>
      .after Work.leaves_modifyOwn fun _ => exhausts

end Subsumer

/-! ## Elimination -/

namespace Eliminator

variable {touched : List Nat} {pivot : Nat} {sides : GateSides} {redundant : List Handle}

theorem steady_onSubsumer {α : Type} {body : Work Subsumer α} (steady : Steady body) :
    Steady (onSubsumer body) :=
  fun state current => .within (onSubsumer_apply body state)
    ((steady (state.1.own.subsumer, state.2) current).imp (fun _ _ => id) fun _ _ => id)

/-- A trial is steady unless it answers with variables that it touched. -/
def SteadyUnlessTouching (body : Work Eliminator (List Nat)) : Prop :=
  ∀ state : Tool Eliminator × Engine, state.2.Current →
    body.Ends state (fun touched after => touched = [] → after.2.Current) fun _ _ => True

theorem SteadyUnlessTouching.of_steady {body : Work Eliminator (List Nat)}
    (steady : Steady body) : SteadyUnlessTouching body :=
  fun state current => (steady state current).imp (fun _ _ held _ => held) fun _ _ => id

theorem SteadyUnlessTouching.bind {α : Type} {first : Work Eliminator α}
    {next : α → Work Eliminator (List Nat)} (steady : Steady first)
    (rest : ∀ value, SteadyUnlessTouching (next value)) : SteadyUnlessTouching (first >>= next) :=
  fun state current => .bind (steady state current) fun value after => rest value after

theorem SteadyUnlessTouching.after {α : Type} {first : Work Eliminator α}
    {next : α → Work Eliminator (List Nat)} (leaves : Leaves first)
    (rest : ∀ value, SteadyUnlessTouching (next value)) : SteadyUnlessTouching (first >>= next) :=
  .bind (.of_tracks (.of_leaves leaves)) rest

/-- An elimination touches the variable that it eliminates. -/
theorem replaceByResolvents_touches (state : Tool Eliminator × Engine) :
    (replaceByResolvents pivot sides redundant touched).Ends state
      (fun touched _ => touched ≠ []) fun _ _ => True := by
  have named : ∀ touched : List Nat, sortedNumbers (touched ++ [pivot]) ≠ [] := by
    intro touched
    have member : pivot ∈ sortedNumbers (touched ++ [pivot]) :=
      mem_sortedNumbers.2 (List.mem_append_right _ List.mem_cons_self)
    exact List.ne_nil_of_mem member
  refine .bind .trivial fun _ _ _ => .bind .trivial fun _ _ _ => .bind .trivial fun _ _ _ =>
    .bind .trivial fun _ _ _ => .bind .trivial fun _ _ _ => .bind .trivial fun _ _ _ => ?_
  split
  · exact .bind .trivial fun _ _ _ => .pure (named _)
  · exact .pure (named _)

/-- Resolvents may assign root literals, but then they touch variables. -/
theorem decideElimination_steadyUnlessTouching :
    SteadyUnlessTouching (decideElimination pivot sides redundant touched) := by
  refine .after made_forecast.leaves fun found => ?_
  split
  · exact .of_steady .pure
  · refine .after (.lift Engine.leaves_look) fun settings =>
      .after Work.leaves_own fun own => ?_
    dsimp only
    split
    · exact .of_steady .pure
    · refine .after Work.leaves_modifyOwn fun _ state _ => ?_
      exact (replaceByResolvents_touches state).imp (fun _ _ some_ none => absurd none some_)
        fun _ _ => id

/-- Removing blocked clauses assigns nothing. -/
theorem afterBlocked_steadyUnlessTouching :
    SteadyUnlessTouching (afterBlocked pivot sides redundant) := by
  refine .bind (.of_tracks made_removeBlockedSide.tracks) fun (enough, positive, touched) => ?_
  dsimp only
  split
  · refine .bind (.of_tracks made_removeBlockedSide.tracks) fun (enough, negative, touched) => ?_
    dsimp only
    split
    · split
      · exact .after (.lift made_searchGate.leaves) fun _ =>
          decideElimination_steadyUnlessTouching
      · exact decideElimination_steadyUnlessTouching
    · exact .of_steady .pure
  · exact .of_steady .pure

/-- A trial that touches nothing assigns nothing. -/
theorem eliminate_steadyUnlessTouching : SteadyUnlessTouching (eliminate pivot) := by
  have decided : ∀ (sides : GateSides) (positive negative : Nat) (settings : Settings)
      (redundant : List Handle), SteadyUnlessTouching
        (if sides.gate.isNone && settings.skips positive negative then return []
        else if settings.blockedDuringElimination then afterBlocked pivot sides redundant
        else decideElimination pivot sides redundant []) := by
    intro sides positive negative settings redundant
    split
    · exact .of_steady .pure
    · split
      · exact afterBlocked_steadyUnlessTouching
      · exact decideElimination_steadyUnlessTouching
  refine .after (.lift made_clausesWith.leaves) fun (positive, positiveRedundant) =>
    .after (.lift made_clausesWith.leaves) fun (negative, negativeRedundant) =>
    .after (.lift Engine.leaves_look) fun settings => ?_
  dsimp only
  split
  · refine .after Work.leaves_spend fun enough => ?_
    split
    · exact .after (.lift made_searchGate.leaves) fun _ => decided _ _ _ _ _
    · exact .of_steady .pure
  · exact decided _ _ _ _ _

/-- If a trial touched variables, the root literals that it found are applied. -/
theorem steady_step : Steady step := by
  refine .bind (.of_tracks made_onHeap.tracks) fun selected => ?_
  split
  · exact .pure
  next name =>
    refine .after Work.leaves_spend fun goOn => ?_
    split
    · refine .after (.lift Engine.leaves_isRemovable) fun removable => ?_
      split
      · intro state current
        refine .bind (eliminate_steadyUnlessTouching state current) fun touched after held => ?_
        split
        next none => exact .pure (held (List.isEmpty_iff.1 none))
        next =>
          have onward : Settling (do
              Engine.propagateUnits
              onSubsumer Subsumer.drain
              (touched.filter (· != name)).forM offer
              return true : Work Eliminator Bool) :=
            .first (.lift Engine.settling_propagateUnits) fun _ =>
              .bind (steady_onSubsumer Subsumer.steady_drain) fun _ =>
              .bind (.of_tracks (.forM fun _ => made_offer.tracks)) fun _ => .pure
          exact onward after
      · exact .pure
    · exact .pure

theorem steady_loop (reached : Nat × Nat × Nat) : Steady (loop reached) := by
  intro state current
  exact loop_ends (fun middle current => steady_step middle current) reached current

theorem settling_run : Settling run :=
  .first (.lift Engine.settling_propagateUnits) fun _ =>
    .after (.lift Engine.leaves_look) fun _ => .bind (.of_tracks made_onHeap.tracks) fun _ =>
    .after Work.leaves_modifyOwn fun _ => .bind (.of_tracks (.forM fun _ => made_offer.tracks)) fun _ =>
    .bind (fun state => steady_loop (progress state) state) fun _ => .of_tracks made_onHeap.tracks

end Eliminator

/-! ## Batch elimination -/

/-- Batch elimination applies the root literals first. -/
theorem BatchEliminator.exists_run_eq : ∃ next,
    BatchEliminator.run = (liftM Engine.propagateUnits : Work BatchEliminator Unit) >>= next :=
  ⟨_, bind_assoc _ _ _⟩

theorem BatchEliminator.settling_run : Settling BatchEliminator.run :=
  .last fun _ => .last fun _ => .last fun _ => .lift Engine.settling_propagateUnits

/-! ## Blocked clauses -/

namespace BlockedQueue

theorem settling_run : Settling run :=
  .first (.lift Engine.settling_propagateUnits) fun _ =>
    .after (.lift Engine.leaves_get) fun _ => .after .access fun _ =>
    .after Work.leaves_modifyOwn fun _ => .of_tracks (made_loop _).tracks

end BlockedQueue

/-! ## All techniques -/

section Techniques

variable [Realm]

/-- Removing blocked clauses assigns nothing after the first propagation. -/
theorem BlockedQueue.process_clears {state : Tool BlockedQueue × Engine} (sound : state.2.Sound)
    (strict : ¬ Realm.Lenient) (settled : state.2.Settled) :
    BlockedQueue.process.Ends state
      (fun _ after => after.2.unsat = false → state.2.Clears after.2) fun _ _ => False := by
  refine Work.process_clears sound strict (fun _ => BlockedQueue.works_runAndForget) fun tool => ?_
  refine ends_closed (Work.clears_of_propagateUnits sound settled BlockedQueue.settling_run) ?_
  exact fun after clears => .of_done rfl clears

/-- Probing leaves no root literal to apply because each probe starts with none. -/
theorem Probing.process_clears {state : Tool Unit × Engine} (sound : state.2.Sound)
    (strict : ¬ Realm.Lenient) (settled : state.2.Settled) :
    Probing.process.Ends state
      (fun _ after => after.2.unsat = false → state.2.Clears after.2) fun _ _ => False := by
  have works : ∀ tool, Works .propagation _ (tool, state.2) _ := fun _ =>
    Probing.works_runAndClose settled
  refine Work.process_clears sound strict (fun tool => (works tool).imp fun _ _ _ => trivial)
    fun tool => ?_
  have consistent : Probing.run.Ends (tool, state.2) (fun _ _ => ¬ Rup state.2.picture.formula [])
      fun _ _ => True := by
    refine .step (Work.cancelToRoot_of_sound sound) ?_
    refine .bind (Run.Ends.lift (Engine.propagateUnits_consistent sound settled)) ?_
    rintro _ after ⟨_, fine⟩
    exact Run.Ends.trivial.imp (fun _ _ _ => fine) fun _ _ => id
  have closed := ends_closed consistent fun after fine =>
    (Run.Ends.trivial.imp (fun _ _ _ => fine) fun _ _ => id :
      (liftM Engine.cancelToRoot : Work Unit Unit).Ends after _ _)
  refine ((works tool sound).and closed).imp (fun _ after held => ?_) fun _ _ _ => trivial
  exact ⟨held.1.2.all, held.2⟩

end Techniques

namespace Toolbox

variable {state : Toolbox × Engine}

/-- What a tool clears is cleared when it is used from the box. -/
theorem use_clears {τ : Type} {get : Toolbox → Tool τ} {put : Tool τ → Toolbox → Toolbox}
    {body : Work τ Status} (ends : body.Ends (get state.1, state.2)
      (fun _ after => after.2.unsat = false → state.2.Clears after.2) fun _ _ => False) :
    (use get put body).Ends state
      (fun _ after => after.2.unsat = false → state.2.Clears after.2) fun _ _ => False := by
  refine (use_ends ends).imp ?_ fun _ _ impossible => impossible
  rintro _ ⟨tools, engine⟩ ⟨tool, _, clears⟩
  exact clears

/-- A technique that does not refute the formula clears it. -/
theorem process_clears [Realm] (technique : Technique) (other : technique ≠ .renumbering)
    (sound : state.2.Sound) (strict : ¬ Realm.Lenient) (settled : state.2.Settled) :
    (process technique).Ends state
      (fun _ after => after.2.unsat = false → state.2.Clears after.2) fun _ _ => False := by
  have clears {τ : Type} {next : Unit → Work τ Unit} (tool : Tool τ)
      (settling : Settling ((liftM Engine.propagateUnits : Work τ Unit) >>= next)) :=
    @Work.clears_of_propagateUnits τ _ next (tool, state.2) sound settled settling
  unfold process useSubsumption useElimination
  cases technique with
  | units => exact use_clears (Units.process_clears sound strict settled)
  | twoSat =>
    exact use_clears (Work.process_clears sound strict (fun _ => TwoSat.works_run)
      fun tool => clears tool TwoSat.settling_run)
  | subsumption =>
    exact use_clears (Work.process_clears sound strict
      (fun _ => .step rfl rfl (Subsumer.works_run rfl))
      fun tool => .step rfl (clears _ Subsumer.settling_run))
  | equivalences =>
    exact use_clears (Work.process_clears sound strict
      (fun _ => Equivalence.works_run.imp fun _ _ _ => trivial)
      fun tool => clears tool Equivalence.settling_run)
  | probing => exact use_clears (Probing.process_clears sound strict settled)
  | elimination =>
    exact use_clears (Work.process_clears sound strict
      (fun _ => .step rfl rfl (.step rfl rfl (Eliminator.works_run rfl)))
      fun tool => .step rfl (.step rfl (clears _ Eliminator.settling_run)))
  | batchElimination =>
    obtain ⟨next, begins⟩ := BatchEliminator.exists_run_eq
    refine use_clears (Work.process_clears sound strict (fun _ => BatchEliminator.works_run)
      fun tool => ?_)
    rw [begins]
    exact clears tool (begins ▸ BatchEliminator.settling_run)
  | blockedClauses => exact use_clears (BlockedQueue.process_clears sound strict settled)
  | renumbering => exact absurd rfl other

end Toolbox

end CnfSimplifier
