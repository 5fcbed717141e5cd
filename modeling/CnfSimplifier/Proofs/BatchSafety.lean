import CnfSimplifier.Proofs.BatchElimination
import CnfSimplifier.Proofs.EliminationSafety

/-!
# Batch elimination stays inside the tables

What a pass notes down can still be looked up when stock is taken: carrying plans out
neither starts a new epoch nor gives a slot to another clause. The one loop that goes on
until something is reached is that of the subsumer, and it comes to its end whatever its
budget is. So a run neither makes an access outside the tables nor uses up the fuel of a
loop, and can lack nothing but names for clauses.
-/
namespace CnfSimplifier

open Engine (Firm)

namespace BatchEliminator

variable {base engine : Engine} {state : Tool BatchEliminator × Engine}

/-- It can be told which variables are removable. -/
theorem exists_removableVars? (roomy : engine.Roomy) (small : engine.trail.vars.size ≤ 0x80000000)
    {names : List Nat} (inside : ∀ name ∈ names, 0 < name ∧ name < engine.trail.vars.size) :
    ∃ counted, removableVars? engine names = some counted := by
  induction names with
  | nil => exact ⟨[], rfl⟩
  | cons name rest ih =>
    obtain ⟨own, others⟩ := List.forall_mem_cons.1 inside
    obtain ⟨counted, found⟩ := ih others
    obtain ⟨removable, asked⟩ := Engine.exists_isRemovable? own.2
    obtain ⟨rarity, known⟩ := VarHeap.compares_of_roomy roomy small name own.1 own.2
    simp only [removableVars?, asked, found, known, Option.bind_eq_bind, Option.bind_some]
    split <;> exact ⟨_, rfl⟩

/-- What was noted down is looked up. -/
theorem stays_takeStock {batch : Batch} (deleted : ∀ handle ∈ batch.deleted.toList, base.Issued handle)
    (eliminated : ∀ name ∈ batch.eliminated.toList, name < base.trail.vars.size) :
    (takeStock batch).StaysIn (Firm base) fun _ => True := by
  refine .bind (.modify fun _ firm => firm.with_index (Occurrences.size_clean _ _)) fun _ _ =>
    .bind Engine.stays_count fun _ _ => .bind (.forM fun handle member => ?_) fun _ _ =>
    .forM fun name member => ?_
  · exact .bind (Engine.stays_clause (deleted handle member)) fun _ _ =>
      .bind Engine.stays_prove fun _ _ => Engine.stays_touch
  · exact .bind (Engine.stays_handle_eliminated (eliminated name member)) fun _ _ =>
      Engine.stays_count

/-- Stock is taken by going through lists. -/
theorem fuelless_takeStock {batch : Batch} : (takeStock batch).Fuelless :=
  .bind .modify fun _ => .bind .modify fun _ =>
    .bind (.forM fun _ => .bind .read fun _ => .bind .modify fun _ => .modify) fun _ =>
    .forM fun _ => .bind (.bind .update fun _ => .modify) fun _ => .modify

variable [Realm]

/-- Stock can be taken after a pass. -/
theorem takeStock_fares {batch : Batch} {passed : Engine} (sound : engine.Sound)
    (ranged : engine.Ranged) (passing : Batch.Passing engine (batch, passed)) :
    (takeStock batch).Fares passed
      (fun _ after => engine.Endures after ∧ engine.Leads .removal after) fun _ _ => False := by
  have ends : (takeStock batch).Ends passed (fun _ after => engine.Leads .removal after)
      fun _ _ => False := takeStock_ends passing
  have firm : Firm passed passed :=
    (passing.sound sound).roomy.firm (passing.endures.ranged ranged)
  have names : ∀ name ∈ batch.eliminated.toList, name < passed.trail.vars.size := fun name member =>
    passing.endures.numVars.symm ▸ (passing.eliminated name member).1.inRange
  have lands := (stays_takeStock passing.stored names passed firm).and_ends ends
  exact (lands.fares (fuelless_takeStock passed)).imp
    (fun _ _ held => ⟨passing.endures.trans held.1.1.endures, held.2⟩) fun _ _ => And.right

/-- The handles that wait are no older than the epoch of a sound engine. -/
structure Secure (base : Engine) (state : Tool BatchEliminator × Engine) : Prop where
  sound : state.2.Sound
  orderly : state.2.trail.Orderly
  plain : state.1.own.own.graph = none
  current : Subsumer.Current base (state.1.own, state.2)

/-- Resolvents are put into the queue of the subsumer. -/
theorem enqueueAll_fares {handles : List Handle} (secure : Secure base state) :
    (handles.forM fun handle => onSubsumer (Subsumer.enqueue handle)).Fares state
      (fun _ after => Secure base after) fun _ after => base.Endures after.2 := by
  induction handles generalizing state with
  | nil => exact .pure secure
  | cons handle rest ih =>
    have works : Works .removal (onSubsumer (Subsumer.enqueue handle)) state
        fun _ after => after.1.own.own.graph = none :=
      (works_onSubsumer (Subsumer.works_enqueue secure.plain)).imp fun _ _ => And.left
    have stays : (onSubsumer (Subsumer.enqueue handle)).Fares state
        (fun _ after => Subsumer.Current base (after.1.own, after.2))
        fun _ after => Subsumer.Current base (after.1.own, after.2) :=
      .within (onSubsumer_apply _ state) (((Subsumer.stays_enqueue _ secure.current).fares
        (Subsumer.made_enqueue.fuelless _)).imp (fun _ _ => And.left) fun _ _ => id)
    refine ((stays.and_ends (works secure.sound)).imp (fun _ _ held => ?_)
      fun _ _ held => held.1.firm.endures).bind fun _ _ secure => ih secure
    obtain ⟨current, leads, plain⟩ := held
    exact ⟨leads.sound secure.sound, leads.orderly secure.orderly, plain, current⟩

/-- The resolvents are subsumed when the pass is over. -/
theorem tidy_fares (strict : ¬ Realm.Lenient) {batch : Batch} (secure : Secure base state) :
    (tidy batch).Fares state (fun _ after => base.Endures after.2 ∧ after.1.own.own.queue = [])
      fun _ after => base.Endures after.2 := by
  refine (enqueueAll_fares secure).bind fun _ queued secure => ?_
  have knows : Subsumer.Knows none (queued.1.own, queued.2) := ⟨⟨secure.plain, nofun, nofun⟩, nofun⟩
  have endures := secure.current.firm.endures
  have drains : Subsumer.drain.Fares (queued.1.own, queued.2) _ _ :=
    Subsumer.drain_meets strict secure.sound secure.orderly knows
  have drained : (onSubsumer Subsumer.drain).Fares queued
      (fun _ after => (after.2.Sound ∧ after.2.trail.Orderly) ∧ base.Endures after.2 ∧
        after.1.own.own.queue = []) fun _ after => base.Endures after.2 :=
    .within (onSubsumer_apply _ queued) (drains.imp (fun _ after held =>
      ⟨⟨held.1.1.sound, held.1.1.leads.orderly secure.orderly⟩, endures.trans held.1.2, held.2⟩)
      fun _ _ => endures.trans)
  refine drained.bind fun _ left ⟨⟨sound, orderly⟩, endures, empty⟩ => ?_
  refine (Engine.propagateUnits_meets sound orderly).lift.imp ?_ ?_
  · exact fun _ _ held => ⟨endures.trans held.2.2, held.1 ▸ empty⟩
  · exact fun _ _ held => endures.trans held.2

/-- Everything is found that a run looks for before the resolvents are subsumed. -/
theorem sweep_fares (sound : state.2.Sound) (orderly : state.2.trail.Orderly)
    (ranged : state.2.Ranged)
    (current : ∀ handle ∈ state.1.own.own.queue, handle.epoch = state.2.arena.epoch) :
    sweep.Fares state (fun _ after => Secure state.2 after) fun _ after => state.2.Endures after.2 := by
  unfold sweep
  refine ((Engine.propagateUnits_meets sound orderly).lift.imp (fun _ _ => id)
    fun _ _ => And.right).bind ?_
  rintro _ ⟨tool, engine⟩ ⟨same, leads, endures⟩
  dsimp only at leads endures same
  subst same
  have cleans : Works .removal _ engine _ := works_clean
  let cleaned : Engine := { engine with index := engine.index.clean engine.arena }
  have leads : state.2.Leads .removal cleaned :=
    leads.trans ((cleans (leads.sound sound)).done_of_eq rfl).1
  have endures : state.2.Endures cleaned := endures.trans (.of_aside rfl rfl)
  have soundNow := leads.sound sound
  refine .step rfl (.step rfl ?_)
  obtain ⟨counted, found⟩ : ∃ counted, removableVars? cleaned (List.range' 1 cleaned.numVars) =
      some counted := by
    refine exists_removableVars? soundNow.roomy soundNow.trail.small fun name member => ?_
    have among := List.mem_range'_1.1 member
    have count : cleaned.numVars + 1 = cleaned.trail.vars.size :=
      Nat.sub_add_cancel soundNow.trail.nonempty
    omega
  refine .step (Run.access_of_eq_some found) ?_
  refine (pass_fares soundNow found).bind ?_
  rintro batch ⟨_, passed⟩ ⟨passing, rfl⟩
  refine .step rfl ?_
  have takes (tool : Tool BatchEliminator) : (liftM (takeStock batch) : Work BatchEliminator Unit).Fares
      (tool, passed) (fun _ after => after.1 = tool ∧ cleaned.Endures after.2 ∧
        cleaned.Leads .removal after.2) fun _ after => state.2.Endures after.2 :=
    .imp (.lift (takeStock_fares soundNow (endures.ranged ranged) passing)) (fun _ _ => id)
      fun _ _ impossible => impossible.2.elim
  refine (takes _).bind ?_
  rintro _ ⟨tool, stock⟩ ⟨same, further, leadsStock⟩
  dsimp only at same further leadsStock
  subst same
  have leads := leads.trans leadsStock
  have endures := endures.trans further
  have sound := leads.sound sound
  have firm : Firm state.2 stock := ⟨sound.roomy, endures, endures.ranged ranged⟩
  exact .step rfl (.pure ⟨sound, leads.orderly orderly, rfl, firm, current⟩)

/-- Batch elimination can lack nothing but names, and no clause waits afterwards. -/
theorem process_fares (strict : ¬ Realm.Lenient) (sound : state.2.Sound)
    (orderly : state.2.trail.Orderly) (ranged : state.2.Ranged)
    (current : ∀ handle ∈ state.1.own.own.queue, handle.epoch = state.2.arena.epoch) :
    process.Fares state (fun status after => state.2.Endures after.2 ∧
      (status ≠ .unsat → after.1.own.own.queue = [])) fun _ _ => False := by
  refine (Work.process_meets (fun own => own.own.queue = []) (fun _ => True) fun tool own => ?_).imp
    ?_ fun _ _ => id
  · have swept : sweep.Fares (tool, state.2) _ _ :=
      sweep_fares sound orderly ranged (own ▸ current)
    have runs : run.Fares (tool, state.2) _ _ := swept.bind fun _ _ secure => tidy_fares strict secure
    refine (runs.and_ends (works_run sound)).imp (fun _ _ => And.left) fun _ _ held => ?_
    exact ⟨held.2.reason.elim And.left fun lenient => absurd lenient.1 strict, held.1, trivial⟩
  · rintro status after ⟨endures, empty | ⟨rfl, _⟩⟩
    · exact ⟨endures, fun _ => empty⟩
    · exact ⟨endures, fun isOpen => absurd rfl isOpen⟩

end BatchEliminator

end CnfSimplifier
