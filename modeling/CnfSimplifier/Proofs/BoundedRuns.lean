import CnfSimplifier.Proofs.GrowthBound

/-!
# The growth bound of runs

A run of elimination keeps a balance: its counter says by how much the formula grew, and
every attempt that the limits allow keeps it so; subsumption and root literals between
the attempts only take clauses away. A run that stops in the middle of an attempt is the
exception, since the resolvents of that attempt were not yet paid for. Batch elimination
does not fail, so there is none.
-/
namespace CnfSimplifier

namespace Engine

/-- New clauses, live and dead, are within the limit for resolvents. -/
def StoresWithin (before after : Engine) : Prop :=
  before.settings.resolventLength ≠ 0 → ∀ handle clause, before.arena.get? handle = none →
    after.arena.get? handle = some clause → clause.size ≤ before.settings.resolventLength.toNat

/-- The live clauses are no more than the limits for a run allow. -/
structure Bounded (before after : Engine) : Prop where
  total : after.arena.liveClauses.length ≤
    before.arena.liveClauses.length + before.settings.totalGrowth.toNat
  level : before.settings.growth = 0 →
    after.arena.liveClauses.length ≤ before.arena.liveClauses.length

variable {before middle after : Engine}

/-- What is stored is within the limit. -/
theorem Enlarges.storesWithin (enlarges : before.Enlarges before.settings.resolventLength after) :
    before.StoresWithin after := by
  intro limited handle clause fresh found
  obtain ⟨_, grows⟩ := enlarges
  rcases grows.arena.older handle clause found with ⟨old, foundOld, _⟩ | within
  · rw [fresh] at foundOld
    cases foundOld
  · exact within limited

/-- Bounds stay kept when clauses go. -/
theorem Bounded.wanes (bounded : before.Bounded middle) (wanes : middle.Wanes after) :
    before.Bounded after := by
  have fewer := wanes.arena.fewer
  rw [Arena.card_contents_eq_length, Arena.card_contents_eq_length] at fewer
  exact ⟨fewer.trans bounded.total, fun none => fewer.trans (bounded.level none)⟩

end Engine

namespace Eliminator

/-- A run has kept to its limits so far, and its counter says by how much the formula grew. -/
structure Balanced (start : Engine) (state : Tool Eliminator × Engine) : Prop where
  enlarges : start.Enlarges start.settings.resolventLength state.2
  total : start.settings.totalGrowth.toNat < UInt32.size →
    state.1.own.grown ≤ start.settings.totalGrowth ∧
      state.2.arena.contents.card ≤ start.arena.contents.card + state.1.own.grown.toNat
  level : start.settings.growth = 0 → state.2.arena.contents.card ≤ start.arena.contents.card

variable {start : Engine} {state : Tool Eliminator × Engine}

theorem Balanced.of_wanes (wanes : start.Wanes state.2) (fresh : state.1.own.grown = 0) :
    Balanced start state := by
  refine ⟨wanes.enlarges, fun _ => ⟨?_, ?_⟩, fun _ => wanes.arena.fewer⟩
  · rw [fresh]
    exact UInt64.zero_le
  · exact wanes.arena.fewer.trans (Nat.le_add_right _ _)

/-- An attempt that the limits allowed. -/
theorem Balanced.tries {step : Nat} {after : Tool Eliminator × Engine}
    (balanced : Balanced start state) (tries : Tries step state after) : Balanced start after := by
  obtain ⟨enlarges, total, level⟩ := balanced
  obtain ⟨engine, grown, allowed, _⟩ := tries
  rw [enlarges.settings] at engine allowed
  have few := engine.arena.few
  refine ⟨enlarges.trans engine.enlarges, fun small => ?_, fun none => ?_⟩
  · obtain ⟨within, sofar⟩ := total small
    by_cases grew : step = 0
    · subst grew
      have same : after.1.own.grown = state.1.own.grown := by simpa using grown
      rw [same]
      exact ⟨within, few.trans (by omega)⟩
    · obtain ⟨_, far, paid⟩ := allowed grew
      have size : UInt32.size = 4294967296 := rfl
      have wide : UInt64.size = 18446744073709551616 := rfl
      have low := UInt64.le_iff_toNat_le.1 within
      have counted : after.1.own.grown.toNat = state.1.own.grown.toNat + step := by
        rw [grown, UInt64.toNat_add, UInt64.toNat_ofNat_of_lt' (by omega)]
        exact Nat.mod_eq_of_lt (by omega)
      exact ⟨paid, by omega⟩
  · have flat := level none
    by_cases grew : step = 0
    · omega
    · have allowed := (allowed grew).1
      rw [none] at allowed
      have zero : (0 : UInt64).toNat = 0 := rfl
      omega

theorem Balanced.idles {after : Tool Eliminator × Engine} (balanced : Balanced start state)
    (idles : Idles state after) : Balanced start after := balanced.tries idles.tries

/-- The counter is right as long as the clauses have names. -/
theorem Balanced.bounded (balanced : Balanced start state)
    (space : start.arena.slots.size < UInt32.size) : start.Bounded state.2 := by
  obtain ⟨enlarges, total, level⟩ := balanced
  have space := enlarges.space space
  rw [Arena.card_contents_eq_length, Arena.card_contents_eq_length] at total level
  refine ⟨?_, level⟩
  by_cases small : start.settings.totalGrowth.toNat < UInt32.size
  · obtain ⟨within, sofar⟩ := total small
    exact sofar.trans (Nat.add_le_add_left (UInt64.le_iff_toNat_le.1 within) _)
  · have below : state.2.arena.liveClauses.length ≤ state.2.arena.slots.size := by
      rw [← Array.length_toList]
      exact List.length_filter_le _ _
    omega

/-- How a run stops early: within its limits, or in an attempt that was begun within them
and had stored resolvents before it failed. -/
structure Stops (start : Engine) (cause : Error) (after : Tool Eliminator × Engine) : Prop where
  enlarges : start.Enlarges start.settings.resolventLength after.2
  bounded : start.Bounded after.2 ∨
    ∃ pivot middle, start.Bounded middle.2 ∧ eliminate pivot middle = .failed cause after

section Runs

variable (space : start.arena.slots.size < UInt32.size)
include space

theorem Stops.of_wanes {cause : Error} {after : Tool Eliminator × Engine}
    (balanced : Balanced start state) (wanes : state.2.Wanes after.2) : Stops start cause after :=
  ⟨balanced.enlarges.wanes wanes, .inl ((balanced.bounded space).wanes wanes)⟩

/-- Work between the attempts. -/
theorem Balanced.bind {α β : Type} {body : Work Eliminator α} {next : α → Work Eliminator β}
    {done : β → Tool Eliminator × Engine → Prop} (balanced : Balanced start state)
    (idle : Idle body)
    (rest : ∀ value after, Balanced start after → (next value).Ends after done (Stops start)) :
    (body >>= next).Ends state done (Stops start) :=
  .bind ((idle state).imp (fun _ _ => id) fun _ _ => Stops.of_wanes space balanced)
    fun value after idles => rest value after (balanced.idles idles)

/-- One turn keeps to the limits. -/
theorem step_balanced (consistent : state.2.Consistent) (balanced : Balanced start state) :
    step.Ends state (fun _ after => Balanced start after) (Stops start) := by
  have selects : (onHeap VarHeap.select).Ends state
      (fun _ after => after.2 = state.2 ∧ Balanced start after) (Stops start) := by
    refine ((Idle.onHeap state).and (onHeap_leaves state)).imp ?_ fun _ _ ⟨wanes, _⟩ =>
      Stops.of_wanes space balanced wanes
    rintro _ after ⟨idles, same⟩
    exact ⟨same, balanced.idles idles⟩
  unfold step
  refine .bind selects fun selected after ⟨same, balanced⟩ => ?_
  rw [← same] at consistent
  split
  · exact .pure balanced
  next name =>
  refine .bind (spend_ponders _) fun enough ready ponders => ?_
  rw [← ponders.engine] at consistent
  have balanced := balanced.idles ponders.idles
  split
  swap
  · exact .pure balanced
  refine Run.Looks.bind Run.Looks.read.lift fun removable _ => ?_
  split
  swap
  · exact .pure balanced
  have attempts : (eliminate name).Ends ready (fun _ after => Balanced start after) (Stops start) := by
    refine ((eliminate_attempts consistent name).and Run.Ends.self).imp ?_ ?_
    · rintro _ after ⟨⟨step, tries⟩, _⟩
      exact balanced.tries tries
    · rintro cause after ⟨enlarges, failed⟩
      rw [balanced.enlarges.settings] at enlarges
      exact ⟨balanced.enlarges.trans enlarges,
        .inr ⟨name, ready, balanced.bounded space, failed⟩⟩
  refine .bind attempts fun touched eliminated balanced => ?_
  split
  · exact .pure balanced
  refine balanced.bind space (.lift Engine.tracks_propagateUnits) fun _ propagated balanced => ?_
  refine balanced.bind space (.onSubsumer Subsumer.made_drain.tracks) fun _ drained balanced => ?_
  exact balanced.bind space (.forM fun _ => .offer) fun _ offered balanced => .pure balanced

/-- The loop keeps to the limits, since every turn does and leaves a sound engine. -/
theorem loop_balanced [Realm] (reached : Nat × Nat × Nat) (sound : state.2.Sound)
    (clean : state.2.index.dirty = #[]) (ready : Ready state.1) (balanced : Balanced start state) :
    Run.Ends (loop reached) state (fun _ after => Balanced start after) (Stops start) := by
  have turns : ∀ state : Tool Eliminator × Engine, (state.2.Sound ∧ state.2.index.dirty = #[] ∧
      Ready state.1 ∧ Balanced start state) → step.Ends state (fun _ after => after.2.Sound ∧
        after.2.index.dirty = #[] ∧ Ready after.1 ∧ Balanced start after) (Stops start) := by
    intro state ⟨sound, clean, ready, balanced⟩
    refine ((step_balanced space (sound.consistent clean) balanced).and
      (works_step ready sound)).imp ?_ fun _ _ => And.left
    exact fun _ after ⟨balanced, leads, ready⟩ =>
      ⟨leads.sound sound, leads.clean clean, ready, balanced⟩
  exact (loop_ends turns reached ⟨sound, clean, ready, balanced⟩).imp
    (fun _ _ ⟨_, _, _, balanced⟩ => balanced) fun _ _ => id

end Runs

/-- Work of which it is known where it leads and that it adds nothing. -/
theorem Idle.leads [Realm] {α : Type} {body : Work Eliminator α}
    {post : α → Tool Eliminator × Engine → Prop} (idle : Idle body)
    (works : Works .removal body state post) (sound : state.2.Sound) :
    body.Ends state
      (fun value after => Idles state after ∧ state.2.Leads .removal after.2 ∧ post value after)
      fun _ after => state.2.Wanes after.2 :=
  ((idle state).and (works sound)).imp (fun _ _ => id) fun _ _ => And.left

/-- The variables are offered and tried one after the other. -/
theorem tryAll_balanced [Realm] (space : start.arena.slots.size < UInt32.size) (numVars : Nat)
    (sound : state.2.Sound) (clean : state.2.index.dirty = #[]) (ready : Ready state.1)
    (balanced : Balanced start state) :
    Run.Ends (do
        (List.range' 1 numVars).forM offer
        eliminateAll
        onHeap fun _ => Run.update VarHeap.clear) state
      (fun _ after => Balanced start after) (Stops start) := by
  have offers : Works .removal ((List.range' 1 numVars).forM offer) state
      fun _ after => Ready after.1 :=
    .forM ready fun name member state ready => works_offer (List.mem_range'_1.1 member).1 ready
  refine .bind ((Idle.leads (.forM fun _ => .offer) offers sound).imp (fun _ _ => id)
    fun _ _ => .of_wanes space balanced) fun _ queued ⟨idles, leads, ready⟩ => ?_
  refine .bind (loop_balanced space _ (leads.sound sound) (leads.clean clean) ready
    (balanced.idles idles)) fun _ looped balanced => ?_
  exact (Idle.onHeap looped).imp (fun _ _ => balanced.idles) fun _ _ => .of_wanes space balanced

/-- A run keeps to its limits, unless an attempt fails. -/
theorem run_balanced [Realm] (sound : state.2.Sound) (clean : state.2.index.dirty = #[])
    (plain : state.1.own.subsumer.own.graph = none) :
    run.Ends state (fun _ after => Balanced state.2 after) (Stops state.2) := by
  have space := sound.space
  have stops : ∀ (middle : Tool Eliminator × Engine) (cause : Error)
      (after : Tool Eliminator × Engine), state.2.Wanes middle.2 → middle.2.Wanes after.2 →
      Stops state.2 cause after := by
    intro middle cause after sofar wanes
    have fresh : Balanced state.2 (({ middle.1 with own := {} }, middle.2) :
      Tool Eliminator × Engine) := .of_wanes sofar rfl
    exact .of_wanes space fresh wanes
  unfold run
  refine .bind ((Idle.leads (.lift Engine.tracks_propagateUnits)
    Engine.works_propagateUnits.lift sound).imp (fun _ _ => id)
      (stops state · · (.refl _))) fun _ propagated ⟨idles, leads, tool, _⟩ => ?_
  refine .step rfl ?_
  have cleared : (Run.update fun heap =>
      (VarHeap.expand heap propagated.2.numVars).clear).Ends propagated.1.own.heap
        (fun _ after => after.Positive) fun _ _ => False :=
    .update fun after done => VarHeap.positive_of_clear done
  refine .bind ((Idle.leads .onHeap (works_onHeap cleared) (leads.sound sound)).imp
    (fun _ _ => id) (stops propagated · · idles.engine))
      fun _ emptied ⟨more, further, _, subsumer, heap⟩ => ?_
  have leads := leads.trans further
  have plain : emptied.1.own.subsumer.own.graph = none := by
    rw [subsumer, tool]
    exact plain
  exact .step rfl (tryAll_balanced space _ (leads.sound sound) (leads.clean clean) ⟨plain, heap⟩
    (.of_wanes (idles.trans more).engine rfl))

end Eliminator

/-! ## Techniques -/

/-- The conclusion does not touch the clauses. -/
theorem Engine.conclude_arena {engine : Engine} {result : Except Error Unit}
    {failed : Error → Engine → Prop} :
    (Engine.conclude result).Ends engine
      (fun status after => after.arena = engine.arena ∧
        ∀ cause, result = .error cause → cause.isUnsat = true → status = .unsat) failed := by
  unfold conclude
  split
  · exact .of_done rfl ⟨rfl, nofun⟩
  next cause =>
    split
    · refine .step rfl ?_
      split <;> exact .of_done rfl ⟨rfl, fun _ _ _ => rfl⟩
    next open_ =>
      have impossible : ∀ status : Status, ∀ other : Error,
          (Except.error cause : Except Error Unit) = .error other → other.isUnsat = true →
          status = .unsat := by
        rintro _ _ ⟨⟩ isUnsat
        exact absurd isUnsat open_
      split <;> exact .of_done rfl ⟨rfl, impossible _⟩

/-- What a body comes to, done or failed, is what its technique comes to. -/
theorem Work.process_ends_of_ends {τ : Type} {base : Settings → UInt64} {body : Work τ Unit}
    {notice : Nat → Engine → Budget → Engine → Notice} {state : Tool τ × Engine}
    {done : Tool τ × Engine → Prop} {failed : Error → Tool τ × Engine → Prop}
    (ends : ∀ tool : Tool τ, body.Ends (tool, state.2) (fun _ after => done after)
      fun cause after => cause.isUnsat = true ∧ failed cause after) :
    (Work.process base body notice).Ends state
      (fun status after => ∃ last, after.2.arena = last.2.arena ∧
        (done last ∨ status = .unsat ∧ ∃ cause, failed cause last)) fun _ _ => False := by
  refine .step rfl (.step rfl (.step rfl ?_))
  have attempted : ∀ tool, body.attempt.Ends (tool, state.2)
      (fun result after => (∀ cause, result = .error cause →
        cause.isUnsat = true ∧ failed cause after) ∧ (result = .ok () → done after))
      fun _ _ => False := fun tool => .attempt <| (ends tool).imp
    (fun _ _ holds => ⟨nofun, fun _ => holds⟩) fun cause _ holds =>
      ⟨by rintro _ ⟨⟩; exact holds, nofun⟩
  refine Run.Ends.bind (attempted _) fun result last ⟨whenFailed, whenDone⟩ => ?_
  refine .step rfl (.step rfl (.step rfl ?_))
  refine (Run.Ends.lift Engine.conclude_arena).imp ?_ fun _ _ => id
  rintro status after ⟨_, arena, verdict⟩
  refine ⟨last, arena, ?_⟩
  cases result with
  | ok value => exact .inl (whenDone rfl)
  | error cause =>
    obtain ⟨isUnsat, holds⟩ := whenFailed cause rfl
    exact .inr ⟨verdict cause rfl isUnsat, cause, holds⟩

namespace Engine

variable {before middle after : Engine}

theorem StoresWithin.of_arena (stores : before.StoresWithin middle)
    (same : after.arena = middle.arena) : before.StoresWithin after := by
  unfold StoresWithin
  rw [same]
  exact stores

theorem Bounded.of_arena (bounded : before.Bounded middle) (same : after.arena = middle.arena) :
    before.Bounded after := by
  refine ⟨?_, ?_⟩ <;> rw [same]
  · exact bounded.total
  · exact bounded.level

end Engine

namespace Eliminator

/-- Elimination keeps to its limits, unless it finds that there is no model in the middle
of an attempt. -/
theorem process_bounded {engine : Engine} (ready : engine.Ready)
    (kept : ∀ clause ∈ engine.arena.liveClauses, ∀ literal ∈ clause.literals,
      ¬ engine.trail.Removed literal.var) (tool : Tool Eliminator) :
    process.Ends (tool, engine) (fun status after => engine.StoresWithin after.2 ∧
      (engine.Bounded after.2 ∨ status = .unsat ∧ ∃ pivot middle cause last,
        engine.Bounded middle.2 ∧ eliminate pivot middle = .failed cause last ∧
          after.2.arena = last.2.arena)) fun _ _ => False := by
  let _ : Realm := .rootLenient
  have sound : engine.Sound := ready.rootSound kept
  have ends : ∀ started : Tool Eliminator, started.own.subsumer.own.graph = none →
      run.Ends (started, engine) (fun _ after => Balanced engine after) fun cause after =>
        cause.isUnsat = true ∧ Stops engine cause after := by
    intro started plain
    refine ((run_balanced sound ready.clean plain).and (works_run plain sound)).imp
      (fun _ _ => And.left) fun cause after ⟨stops, fails⟩ => ⟨?_, stops⟩
    exact fails.reason.elim And.left fun lenient => lenient.1.elim
  unfold process
  refine .imp (Work.process_ends_of_ends fun started => .step rfl (.step rfl (ends _ rfl))) ?_
    fun _ _ => id
  rintro status after ⟨last, arena, balanced | ⟨unsat, cause, enlarges, stopped⟩⟩
  · exact ⟨balanced.enlarges.storesWithin.of_arena arena,
      .inl ((balanced.bounded ready.space).of_arena arena)⟩
  · refine ⟨enlarges.storesWithin.of_arena arena, ?_⟩
    rcases stopped with bounded | ⟨pivot, middle, begun, failed⟩
    · exact .inl (bounded.of_arena arena)
    · exact .inr ⟨unsat, pivot, middle, cause, last, begun, failed, arena⟩

/-- One attempt keeps to the limit for a variable, unless it fails. -/
theorem eliminate_bounded {engine : Engine} (consistent : engine.Consistent) (tool : Tool Eliminator)
    (pivot : Nat) :
    (eliminate pivot).Ends (tool, engine) (fun _ after => engine.StoresWithin after.2 ∧
        after.2.arena.liveClauses.length ≤
          engine.arena.liveClauses.length + engine.settings.growth.toNat ∧
        (after.2.trail.eliminated = engine.trail.eliminated →
          after.2.arena.liveClauses.length ≤ engine.arena.liveClauses.length))
      fun _ after => engine.StoresWithin after.2 := by
  refine Run.Ends.imp (eliminate_attempts consistent pivot) ?_
    fun _ _ enlarges => Engine.Enlarges.storesWithin enlarges
  rintro _ after ⟨step, tries⟩
  have few := tries.engine.arena.few
  rw [Arena.card_contents_eq_length, Arena.card_contents_eq_length] at few
  dsimp only at few
  refine ⟨tries.engine.enlarges.storesWithin, ?_, fun declined => ?_⟩
  · by_cases grew : step = 0
    · exact few.trans (by omega)
    · exact few.trans (Nat.add_le_add_left (tries.allowed grew).1 _)
  · rw [tries.declined declined] at few
    exact few

end Eliminator

end CnfSimplifier
