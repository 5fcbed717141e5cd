import CnfSimplifier.Proofs.Endurance
import CnfSimplifier.Proofs.ExactProbing
import CnfSimplifier.Proofs.GraphSearch

/-!
# Probing comes to its end

A probe begins where all root literals were applied and what is to be propagated is on the
trail, and it leaves the engine in such a state again. The variables that are probed are
those of a graph of the engine, so their values can be looked up.
-/
namespace CnfSimplifier.Probing

variable {graph : Implications}

/-- The variables of a graph can be told apart. -/
theorem exists_classify? (full : graph.Full) {names : List Nat}
    (inside : ∀ name ∈ names, name ∈ List.range' 1 graph.numVars) :
    ∃ classified, classify? graph names = some classified := by
  induction names with
  | nil => exact ⟨([], []), rfl⟩
  | cons name rest ih =>
    obtain ⟨own, others⟩ := List.forall_mem_cons.1 inside
    obtain ⟨⟨roots, left⟩, classified⟩ := ih others
    obtain ⟨sameVar, present, bound⟩ := full.var_ofVar own true
    have complementVar : (Literal.ofVar name true).complement.var = name := by
      rw [Literal.var_complement (sameVar.symm ▸ present), sameVar]
    obtain ⟨forward, foundForward⟩ :=
      Implications.exists_node? (full.index_lt (sameVar.trans_le bound))
    obtain ⟨backward, foundBackward⟩ :=
      Implications.exists_node? (full.index_lt (complementVar.trans_le bound))
    obtain ⟨positiveIsRoot, asked⟩ :=
      full.exists_isRoot? (sameVar.symm ▸ present) (sameVar.trans_le bound)
    obtain ⟨negativeIsRoot, askedComplement⟩ :=
      full.exists_isRoot? (complementVar.symm ▸ present) (complementVar.trans_le bound)
    simp only [classify?, Implications.successors?, foundForward, foundBackward, classified, asked,
      askedComplement, Option.map_some, Option.bind_eq_bind, Option.bind_some]
    split <;> exact ⟨_, rfl⟩

theorem exists_order? (full : graph.Full) : ∃ names, order? graph graph.numVars = some names := by
  obtain ⟨classified, found⟩ := exists_classify? full fun _ => id
  exact ⟨_, congrArg (Option.map _) found⟩

variable [Realm] {admitted : Breakdown → Prop} {state : Tool Unit × Engine}

/-- Every probe leaves the engine ready for the next one. -/
theorem safe_probeAll (strict : ¬ Realm.Lenient) {names : List Nat} (able : Able state.2)
    (present : ∀ name ∈ names, state.2.picture.Present name) :
    (probeAll names).Safe admitted state := by
  induction names generalizing state with
  | nil => exact .pure
  | cons name rest ih =>
    obtain ⟨presentName, presentRest⟩ := List.forall_mem_cons.1 present
    obtain ⟨tool, engine⟩ := state
    have inside : name < engine.trail.vars.size :=
      Trail.lt_of_le_numVars able.sound.trail.nonempty presentName.2.1
    have known : engine.trail.value? name = some engine.trail.vars[name].value := by
      rw [Trail.value?, Array.getElem?_eq_getElem inside, Option.map_some]
    unfold probeAll
    obtain ⟨goOn, budget, spent, _⟩ := Work.spend_done 1 tool engine
    refine .step spent ?_
    split
    swap
    · exact .pure
    refine .step (Run.read_of_eq_some known) ?_
    split
    swap
    · exact .step rfl (ih able presentRest)
    next isNone =>
    have isOpen := Trail.open_of_value?
      (known.trans (congrArg some (Option.isNone_iff_eq_none.1 isNone)))
    have works : Works .propagation (probeVar name) ({ tool with budget := budget }, engine) _ :=
      works_probeVar able.applied presentName isOpen
    have finishes : (probeVar name).Finishes ({ tool with budget := budget }, engine) _ _ :=
      probeVar_finishes able strict presentName isOpen
    have never := finishes.safe
    have probes := ((works able.sound).and (lasts_probeVar _)).imp (fun _ _ => id) fun _ _ _ => trivial
    dsimp only
    refine .bind (fun why stuck => (never why stuck).elim) probes ?_
    rintro _ ⟨probed, after⟩ ⟨⟨leads, applied⟩, endures⟩
    exact ih ⟨leads.sound able.sound, applied, endures.trail.head able.head⟩
      fun other member => Steps.present leads.steps (by decide) (presentRest other member)

/-- A run is never stuck. -/
theorem safe_run (strict : ¬ Realm.Lenient) (sound : state.2.Sound) (settled : state.2.Settled)
    (head : state.2.trail.head ≤ state.2.trail.literals.size) : run.Safe admitted state := by
  have works : Works .propagation Engine.propagateUnits state.2 _ := works_propagateUnits settled
  have lifted : Works .propagation (liftM Engine.propagateUnits : Work Unit Unit) state _ := .lift works
  have lasts : Lasts (liftM Engine.propagateUnits : Work Unit Unit) :=
    .lift Engine.tracks_propagateUnits
  unfold run
  refine .step (Work.cancelToRoot_of_sound sound) ?_
  refine .bind (Engine.safe_propagateUnits sound (.inr settled.orderly)).lift
    ((lifted sound).and (lasts state)) ?_
  rintro _ ⟨tool, closed⟩ ⟨⟨leads, _, applied⟩, endures⟩
  have soundClosed : closed.Sound := leads.sound sound
  have reflected : Works .propagation Engine.implications closed _ := Engine.works_implications
  obtain ⟨graph, known, built, full, leadsKnown, same, reflects, _⟩ :=
    (Engine.implications_returns soundClosed).and_ends (reflected soundClosed)
  have soundKnown : known.Sound := leadsKnown.sound soundClosed
  have able : Able known := by
    rw [same]
    exact ⟨same ▸ soundKnown, ⟨applied.all, ⟨applied.settled.orderly, applied.settled.settles⟩⟩,
      endures.trail.head head⟩
  obtain ⟨names, ordered⟩ := exists_order? full
  have numVars : graph.numVars = known.numVars := reflects.numVars
  rw [numVars] at ordered
  refine .step (Run.lift_of_done built) (.step rfl (.step (Run.access_of_eq_some ordered) ?_))
  exact safe_probeAll strict able (present_of_order? soundKnown reflects ordered)

/-- Probing is never stuck. -/
theorem safe_process (strict : ¬ Realm.Lenient) (sound : state.2.Sound) (settled : state.2.Settled)
    (head : state.2.trail.head ≤ state.2.trail.literals.size) : process.Safe admitted state := by
  refine Work.safe_process fun tool _ _ => ?_
  have works : Works .propagation run (tool, state.2) _ := works_run settled
  have attempted : run.attempt.Ends (tool, state.2) (fun _ after => after.2.Sound)
      fun _ _ => False :=
    .attempt ((works sound).imp (fun _ _ held => held.1.sound sound) fun _ _ fails => fails.sound sound)
  have safe : run.Safe admitted (tool, state.2) := safe_run strict sound settled head
  refine .bind safe.attempt attempted fun result after soundAfter => ?_
  refine .step (Work.cancelToRoot_of_sound soundAfter) ?_
  cases result with
  | ok => exact .pure
  | error => exact .fail

end CnfSimplifier.Probing
