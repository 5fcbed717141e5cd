import CnfSimplifier.Proofs.BatchElimination
import CnfSimplifier.Proofs.ChangeCounter
import CnfSimplifier.Proofs.Probing
import CnfSimplifier.Proofs.ComposedTechniques

/-!
# What techniques count

Most techniques are put together from counted operations of the engine, and what they
do to their tools is no change of the formula. Their loops are counted whatever turn
they take, so nothing is asked about the state they start from.

A probe undoes what it did, if nothing is left to propagate at the root before it; so
probing is looked at from an engine whose applied root literals are out of the
clauses. Batch elimination changes clauses first and reports them at the end of the
pass; in between it is the list of what is to be reported that tells of a change.
-/
namespace CnfSimplifier

/-! ## Tools -/

/-- A technique counts if its body does. -/
theorem Work.process_counts {τ : Type} {base : Settings → UInt64} {body : Work τ Unit}
    {notice : Nat → Engine → Budget → Engine → Notice} {state : Tool τ × Engine}
    (counts : ∀ tool, body.Ends (tool, state.2) (fun _ after => state.2.Counts after.2)
      fun _ after => state.2.Counts after.2) :
    (Work.process base body notice).Ends state (fun _ after => state.2.Counts after.2)
      fun _ after => state.2.Counts after.2 := by
  refine .step rfl (.step rfl (.step rfl ?_))
  have attempted : ∀ tool, body.attempt.Ends (tool, state.2)
      (fun _ after => state.2.Counts after.2) fun _ after => state.2.Counts after.2 :=
    fun tool => .attempt (counts tool)
  refine Run.Ends.bind (attempted _) fun result after sofar => Tracks.onward ?_ sofar
  exact .after leaves_budget fun _ => .after (.lift Engine.leaves_get) fun _ =>
    .bind (.lift Engine.tracks_tell) fun _ => .lift Engine.tracks_conclude

/-- Applying the root assignment counts what it does. -/
theorem Units.process_counts [Realm] {state : Tool Unit × Engine} (sound : state.2.Sound) :
    Units.process.Ends state (fun _ after => state.2.Counts after.2)
      fun _ after => state.2.Counts after.2 := by
  refine .step rfl (.step (Work.cancelToRoot_of_sound sound) ?_)
  exact Tracks.after (.lift Engine.leaves_look) (fun _ =>
    .bind (.lift Engine.tracks_propagateUnits.attempt) fun _ =>
    .after (.lift Engine.leaves_look) fun _ => .bind (.lift Engine.tracks_tell) fun _ =>
    .lift Engine.tracks_conclude) _

/-! ## Retired variables -/

/-- The records of a substituted variable come with the mark that is counted. -/
theorem Equivalence.touching_retire {literal representative : Literal} :
    Touching (retire literal representative) :=
  Engine.unseen_pushRecord.touching fun _ => Engine.unseen_pushRecord.touching fun _ =>
    (Engine.touching_handle (by nofun) (by nofun)).unseen fun _ => Engine.unseen_count

instance : UpheldByTechniques Engine.Counts where
  storeClause := Engine.counted_storeClause
  setPhase := Engine.counted_setPhase
  retire := Equivalence.touching_retire.counted
  eliminated := (Engine.touching_handle (by nofun) (by nofun)).counted

/-! ## Batch elimination -/

namespace BatchEliminator

theorem touching_reportDeleted {handle : Handle} : Touching (reportDeleted handle) :=
  Engine.unseen_clause.touching fun _ => Engine.unseen_prove.touching fun _ =>
    Engine.touching_touch

theorem touching_reportEliminated {name : Nat} : Touching (reportEliminated name) :=
  (Engine.touching_handle (by nofun) (by nofun)).unseen fun _ => Engine.unseen_count

variable [Realm]

/-- If there is anything to report, it is counted. -/
theorem takeStock_counts {base engine : Engine} {batch : Batch}
    (passing : Batch.Passing base (batch, engine)) {failed : Error → Engine → Prop} :
    (takeStock batch).Ends engine (fun _ after => base.Counts after) failed := by
  unfold takeStock
  refine .step rfl (.step rfl ?_)
  refine (Touching.forM (fun _ => touching_reportDeleted) _ _).bind fun _ middle deleted => ?_
  refine (Touching.forM (fun _ => touching_reportEliminated) _ _).imp ?_ fun _ _ => id
  rintro _ after eliminated
  have uncounted : base.Uncounted { engine with
      index := engine.index.clean engine.arena
      tally := { engine.tally with
        resolvents := engine.tally.resolvents + batch.resolvents.size
        blocked := engine.tally.blocked + batch.blocked
        postponed := engine.tally.postponed + batch.postponed
        postponeOverflow := engine.tally.postponeOverflow + batch.overflow } } :=
    passing.uncounted.trans ⟨rfl, rfl, rfl⟩
  rcases deleted with touches | ⟨noneDeleted, rfl⟩
  · rcases eliminated with further | ⟨_, rfl⟩
    · exact (uncounted.trans_touches touches).counts.trans further.counts
    · exact (uncounted.trans_touches touches).counts
  · rcases eliminated with touches | ⟨noneEliminated, rfl⟩
    · exact (uncounted.trans_touches touches).counts
    · obtain rfl : engine = base := passing.idle noneDeleted noneEliminated
      exact uncounted.counts (.of_same rfl rfl rfl)

/-- Batch elimination counts its changes when the pass is over. -/
theorem sweep_counts {state : Tool BatchEliminator × Engine} (sound : state.2.Sound) :
    sweep.Ends state (fun _ after => state.2.Counts after.2) fun _ after => state.2.Counts after.2 := by
  unfold sweep
  have propagated := (Tracks.lift (Engine.tracks_propagateUnits : Counted _) state).and
    ((Engine.works_propagateUnits.lift : Works .propagation _ state _) sound)
  refine (propagated.imp (fun _ _ => id) fun _ _ => And.left).bind ?_
  rintro _ ⟨tool, engine⟩ ⟨counts, leads, _⟩
  have cleans : Works .propagation (modify fun engine : Engine =>
      { engine with index := engine.index.clean engine.arena } : Run Engine Unit) engine _ :=
    works_clean
  have soundCleaned := ((cleans (leads.sound sound)).done_of_eq rfl).1.sound (leads.sound sound)
  refine .step rfl (.step rfl (Run.Looks.access.bind fun counted found => ?_))
  refine (pass_fares soundCleaned found).ends.bind fun batch ⟨tool, passed⟩ ⟨passing, _⟩ => ?_
  refine .step rfl (Run.Ends.bind (Run.Ends.lift (takeStock_counts passing)) ?_)
  rintro _ stocked ⟨_, stockTaken⟩
  have cleaned : engine.Counts { engine with index := engine.index.clean engine.arena } :=
    Engine.Uncounted.counts ⟨rfl, rfl, rfl⟩ (.of_same rfl rfl rfl)
  refine Tracks.onward ?_ (counts.trans (cleaned.trans stockTaken))
  exact .bind (made_onSubsumer Subsumer.made_start).tracks fun _ => .pure

/-- A run of batch elimination counts its changes. -/
theorem run_counts {state : Tool BatchEliminator × Engine} (sound : state.2.Sound) :
    run.Ends state (fun _ after => state.2.Counts after.2) fun _ after => state.2.Counts after.2 :=
  (sweep_counts sound).bind fun batch _ counts => (made_tidy batch).tracks.onward counts

end BatchEliminator

/-! ## Probing -/

/-- Trails with the same facts give the same values. -/
theorem Trail.value?_eq_of_facts {trail after : Trail} (agrees : trail.Agrees)
    (agreesAfter : after.Agrees) (size : after.vars.size = trail.vars.size)
    (small : trail.vars.size ≤ 0x80000000) (facts : after.facts = trail.facts) {name : Nat}
    (positive : 0 < name) : after.value? name = trail.value? name := by
  unfold Trail.value?
  by_cases inside : name < trail.vars.size
  · have insideAfter : name < after.vars.size := size ▸ inside
    have fits : 2 * name + 1 < UInt32.size := by
      simp only [UInt32.size]
      omega
    rw [Array.getElem?_eq_getElem inside, Array.getElem?_eq_getElem insideAfter]
    have var : ∀ value, (Literal.ofVar name value).var = name :=
      fun value => Literal.var_ofVar positive fits
    have told : ∀ value, after.vars[name].value = some value ↔
        trail.vars[name].value = some value := by
      intro value
      have known : 0 < (Literal.ofVar name value).var := by rwa [var]
      have here := agrees.mem_facts_iff known
        (by rw [var]; exact Array.getElem?_eq_getElem inside)
      have there := agreesAfter.mem_facts_iff known
        (by rw [var]; exact Array.getElem?_eq_getElem insideAfter)
      rw [Literal.isPositive_ofVar positive fits] at here there
      rw [here, there, facts]
    exact congrArg some (Option.ext told)
  · have outside := not_lt.1 inside
    rw [Array.getElem?_eq_none outside, Array.getElem?_eq_none (size ▸ outside)]

namespace Probing

variable [Realm] {engine : Engine} {literal : Literal} {state : Tool Unit × Engine}

/-- A probe whose level is closed leaves the formula. -/
theorem Probed.counts {conflict : Option Handle} {implied : List Literal} {closed : Engine}
    (probed : Probed engine literal conflict implied closed) (sound : engine.Sound) :
    engine.Counts closed := by
  have soundClosed := probed.leads.sound sound
  have facts : closed.trail.facts = engine.trail.facts := congrArg Picture.root probed.picture
  have flags := (probed.leads.retains (by decide)).flags
  have literals := probed.literals
  have records := congrArg Picture.records probed.picture
  have levels := soundClosed.trail.atRoot.trans sound.trail.atRoot.symm
  have values : ∀ name, 0 < name → closed.trail.value? name = engine.trail.value? name :=
    fun name => Trail.value?_eq_of_facts sound.trail.agrees soundClosed.trail.agrees flags.size
      sound.trail.small facts
  obtain ⟨trail, rfl⟩ := probed.restored
  exact Engine.Uncounted.counts ⟨rfl, rfl, rfl⟩ ⟨.refl _, literals, levels, values, flags, records⟩

/-- A probe counts what it changes. -/
theorem probe_counts (sound : state.2.Sound) (applied : Applied state.2)
    (present : state.2.picture.Present literal.var)
    (isOpen : ∀ other ∈ state.2.trail.facts, other.var ≠ literal.var) :
    (probe literal).Ends state (fun _ after => state.2.Counts after.2)
      fun _ after => state.2.Counts after.2 := by
  refine probe_ends sound applied present isOpen fun conflict implied tool closed probed => ?_
  have counts := probed.counts sound
  split
  · exact made_refute.tracks.onward counts
  · exact .pure counts

/-- Both probes of a variable count what they change. -/
theorem probeVar_counts {name : Nat} (sound : state.2.Sound) (applied : Applied state.2)
    (present : state.2.picture.Present name)
    (isOpen : ∀ other ∈ state.2.trail.facts, other.var ≠ name) :
    (probeVar name).Ends state (fun _ after => state.2.Counts after.2)
      fun _ after => state.2.Counts after.2 := by
  obtain ⟨sameVar, complementVar⟩ := vars_of_present sound present
  have presentHere : state.2.picture.Present (Literal.ofVar name true).var := by rwa [sameVar]
  have openHere : ∀ other ∈ state.2.trail.facts, other.var ≠ (Literal.ofVar name true).var := by
    rwa [sameVar]
  have first := (probe_counts sound applied presentHere openHere).and
    (works_probe applied presentHere openHere sound)
  unfold probeVar
  refine (first.imp (fun _ _ => id) fun _ _ => And.left).bind ?_
  rintro (_ | fromPositive) middle ⟨counts, leads, appliedMiddle, implied⟩
  · exact .pure counts
  obtain ⟨picture, _⟩ := implied fromPositive rfl
  have root : middle.2.trail.facts = state.2.trail.facts := congrArg Picture.root picture
  have second : (probe (Literal.ofVar name true).complement).Ends middle _ _ :=
    probe_counts (leads.sound sound) appliedMiddle (by rwa [picture, complementVar])
      (by rwa [root, complementVar])
  refine Run.Ends.bind (second.imp (fun _ _ => counts.trans) fun _ _ => counts.trans) ?_
  rintro (_ | fromNegative) last further
  · exact .pure further
  · exact made_necessary.tracks.onward further

/-- Probing all variables counts what it changes. -/
theorem probeAll_counts {names : List Nat} (sound : state.2.Sound) (applied : Applied state.2)
    (present : ∀ name ∈ names, state.2.picture.Present name) :
    (probeAll names).Ends state (fun _ after => state.2.Counts after.2)
      fun _ after => state.2.Counts after.2 := by
  induction names generalizing state with
  | nil => exact .pure (.refl _)
  | cons name rest ih =>
    obtain ⟨presentName, presentRest⟩ := List.forall_mem_cons.1 present
    refine (Work.leaves_spend _ _).bind ?_
    rintro goOn ⟨tool, _⟩ rfl
    split
    · refine Run.Looks.read.bind fun value known => ?_
      split
      next isNone =>
        have isOpen := Trail.open_of_value?
          (known.trans (congrArg some (Option.isNone_iff_eq_none.1 isNone)))
        have counted : (probeVar name).Ends (tool, state.2) _ _ :=
          probeVar_counts sound applied presentName isOpen
        have probed := counted.and (works_probeVar applied presentName isOpen sound)
        refine Run.Ends.bind (probed.imp (fun _ _ => id) fun _ _ => And.left) ?_
        rintro _ after ⟨counts, leads, appliedAfter⟩
        refine (ih (leads.sound sound) appliedAfter fun other inRest => ?_).imp
          (fun _ _ => counts.trans) fun _ _ => counts.trans
        exact Steps.present leads.steps (by decide) (presentRest other inRest)
      next => exact ih sound applied presentRest
    · exact .pure (.refl _)

/-- Probing counts what it changes. -/
theorem run_counts (sound : state.2.Sound) (settled : state.2.Settled) :
    run.Ends state (fun _ after => state.2.Counts after.2) fun _ after => state.2.Counts after.2 := by
  refine .step (Work.cancelToRoot_of_sound sound) ?_
  have works : Works .propagation (liftM Engine.propagateUnits : Work Unit Unit) state _ :=
    Works.lift (works_propagateUnits settled)
  have propagated := (Tracks.lift (Engine.tracks_propagateUnits : Counted _) state).and (works sound)
  refine (propagated.imp (fun _ _ => id) fun _ _ => And.left).bind ?_
  rintro _ middle ⟨counts, leads, _, applied⟩
  have soundMiddle := leads.sound sound
  have links : Works .propagation (liftM Engine.implications : Work Unit Implications) middle _ :=
    Works.lift Engine.works_implications
  have linked := (Tracks.lift (Engine.tracks_implications : Counted _) middle).and (links soundMiddle)
  refine (linked.imp (fun _ _ => id) fun _ _ reached => counts.trans reached.1).bind ?_
  rintro graph ⟨tool, known⟩ ⟨further, leadsKnown, _, same, reflects, _⟩
  refine .step rfl (Run.Looks.access.bind fun names ordered => ?_)
  have soundKnown := leadsKnown.sound soundMiddle
  refine (probeAll_counts soundKnown ?_ (present_of_order? soundKnown reflects ordered)).imp
    (fun _ _ => (counts.trans further).trans) fun _ _ => (counts.trans further).trans
  dsimp only at same
  rw [same]
  exact ⟨applied.all, ⟨applied.settled.orderly, applied.settled.settles⟩⟩

/-- Probing counts what it makes known, whether or not it finds a contradiction. -/
theorem runAndClose_counts (sound : state.2.Sound) (settled : state.2.Settled) :
    (do let result ← run.attempt
        Engine.cancelToRoot
        match result with
        | .ok () => pure ()
        | .error cause => Run.fail cause : Work Unit Unit).Ends state
      (fun _ after => state.2.Counts after.2) fun _ after => state.2.Counts after.2 := by
  have ran := (run_counts sound settled).and (works_run settled sound)
  have attempted : run.attempt.Ends state
      (fun _ after => state.2.Counts after.2 ∧ after.2.Sound)
      fun _ after => state.2.Counts after.2 := by
    refine .attempt (ran.imp ?_ ?_)
    · rintro _ after ⟨counts, leads, _⟩
      exact ⟨counts, leads.sound sound⟩
    · rintro _ after ⟨counts, fails⟩
      exact ⟨counts, fails.sound sound⟩
  refine attempted.bind ?_
  rintro (cause | _) last ⟨counts, soundLast⟩
  · exact .step (Work.cancelToRoot_of_sound soundLast) (.fail counts)
  · exact .step (Work.cancelToRoot_of_sound soundLast) (.pure counts)

end Probing

/-! ## All techniques -/

namespace Toolbox

/-- Work with one tool of the box counts as the work does. -/
theorem use_counts {τ α : Type} {get : Toolbox → Tool τ} {put : Tool τ → Toolbox → Toolbox}
    {body : Work τ α} {state : Toolbox × Engine}
    (counts : body.Ends (get state.1, state.2) (fun _ after => state.2.Counts after.2)
      fun _ after => state.2.Counts after.2) :
    (use get put body).Ends state (fun _ after => state.2.Counts after.2)
      fun _ after => state.2.Counts after.2 :=
  .within (use_apply get put body state) counts

variable [Realm]

/-- A technique leaves the settings, the interrupt flag and, if it counts no change,
the formula. Only probing asks that applied root literals are out of the clauses. -/
theorem process_counts (technique : Technique) {state : Toolbox × Engine}
    (sound : state.2.Sound) (settled : technique = .probing → state.2.Settled) :
    (process technique).Ends state (fun _ after => state.2.Counts after.2)
      fun _ after => state.2.Counts after.2 := by
  unfold process
  cases technique with
  | units => exact use_counts (Units.process_counts sound)
  | twoSat => exact use_counts (tracks_twoSat _)
  | subsumption => exact use_counts (Subsumer.tracks_process _)
  | equivalences => exact use_counts (Equivalence.tracks_process _)
  | probing =>
    exact use_counts (Work.process_counts fun _ =>
      Probing.runAndClose_counts sound (settled rfl))
  | elimination => exact use_counts (Eliminator.tracks_process _)
  | batchElimination =>
    exact use_counts (Work.process_counts fun _ => BatchEliminator.run_counts sound)
  | blockedClauses => exact use_counts (BlockedQueue.tracks_process _)
  | renumbering => exact use_counts (Numbering.tracks_process _)

end Toolbox

end CnfSimplifier
