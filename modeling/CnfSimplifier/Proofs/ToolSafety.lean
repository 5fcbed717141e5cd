import CnfSimplifier.Proofs.BatchSafety
import CnfSimplifier.Proofs.BlockedFixpoint
import CnfSimplifier.Proofs.ProbingSafety
import CnfSimplifier.Proofs.Runs
import CnfSimplifier.Proofs.SubstitutionSafety
import CnfSimplifier.Proofs.TwoSatSolution

/-!
# Tools that can lack nothing but names

Every technique, begun on a fit engine, stays inside the tables and comes to its end; if
it gets stuck at all then because all names of clauses were given away. What the tools keep
from one run of a technique to the next is good for that: the heap of elimination has a
place for every variable, and the handles that wait for subsumption are no older than the
last compaction. After a refutation the queues may be left as they are, and nothing asks
for them any more.
-/
namespace CnfSimplifier

namespace Run

variable {σ α : Type} {body : Run σ α} {state : σ} {done : α → σ → Prop}
  {failed : Error → σ → Prop}

/-- A sequence meets what its second part meets wherever the first one ends. -/
theorem Meets.seq {admitted : Breakdown → Prop} {β : Type} {next : α → Run σ β}
    {last : β → σ → Prop} (meets : body.Meets admitted state
      (fun value after => (next value).Meets admitted after last failed) failed) :
    (body >>= next).Meets admitted state last failed :=
  meets.bind fun _ _ rest => rest

/-- Where nothing is said of a failure, what is said of a run that is done is added. -/
theorem Meets.and_done {admitted : Breakdown → Prop} {further : α → σ → Prop}
    {otherwise : Error → σ → Prop} (meets : body.Meets admitted state done fun _ _ => True)
    (ends : body.Ends state further otherwise) :
    body.Meets admitted state (fun value after => done value after ∧ further value after)
      fun _ _ => True :=
  (meets.and_ends ends).imp (fun _ _ => id) fun _ _ _ => trivial

end Run

namespace Toolbox

variable {τ α : Type} {tools : Toolbox} {engine after : Engine} {state : Toolbox × Engine}

/-- Work with one tool of the box makes the accesses that it makes with the tool alone. -/
theorem use_meets {admitted : Breakdown → Prop} {get : Toolbox → Tool τ}
    {put : Tool τ → Toolbox → Toolbox} {body : Work τ α} {done : α → Tool τ × Engine → Prop}
    {failed : Error → Tool τ × Engine → Prop}
    (meets : body.Meets admitted (get state.1, state.2) done failed) :
    (use get put body).Meets admitted state
      (fun value after => ∃ tool, after.1 = put tool state.1 ∧ done value (tool, after.2))
      fun cause after => ∃ tool, after.1 = put tool state.1 ∧ failed cause (tool, after.2) :=
  .within (use_apply get put body state) (meets.imp (fun _ after holds => ⟨after.1, rfl, holds⟩)
    fun _ after holds => ⟨after.1, rfl, holds⟩)

/-- The tables of the engine and of the tools range over the variables that there are. -/
structure Spans (tools : Toolbox) (engine : Engine) : Prop where
  ranged : engine.Ranged
  head : engine.trail.head ≤ engine.trail.literals.size
  heap : tools.elimination.own.heap.Sized engine.trail.vars.size

theorem Spans.endures (spans : tools.Spans engine) (endures : engine.Endures after)
    {later : Toolbox} (heap : later.elimination.own.heap.Sized engine.trail.vars.size) :
    later.Spans after :=
  ⟨endures.ranged spans.ranged, endures.trail.head spans.head, endures.numVars.symm ▸ heap⟩

/-- Of the engine only the clauses and the trail matter. -/
theorem Spans.of_aside (spans : tools.Spans engine) (arena : after.arena = engine.arena)
    (trail : after.trail = engine.trail) : tools.Spans after :=
  spans.endures (.of_aside arena trail) spans.heap

/-- The handles that wait in the queues are no older than the last compaction. -/
structure Current (tools : Toolbox) (epoch : UInt32) : Prop where
  subsumption : ∀ handle ∈ tools.subsumption.own.queue, handle.epoch = epoch
  elimination : ∀ handle ∈ tools.elimination.own.subsumer.own.queue, handle.epoch = epoch
  batch : ∀ handle ∈ tools.batchElimination.own.own.queue, handle.epoch = epoch

/-- What the next technique finds, unless the formula was refuted. -/
def Leaves (status : Status) (after : Toolbox × Engine) : Prop :=
  after.1.Spans after.2 ∧ (status ≠ .unsat → after.1.Current after.2.arena.epoch)

/-- A tool that holds no handles leaves those of the others. -/
theorem use_fares {get : Toolbox → Tool τ} {put : Tool τ → Toolbox → Toolbox}
    {body : Work τ Status} (spans : state.1.Spans state.2)
    (current : state.1.Current state.2.arena.epoch)
    (safe : body.Safe (· = .outOfSpace) (get state.1, state.2)) (lasts : Lasts body)
    (subsumption : ∀ tool, (put tool state.1).subsumption = state.1.subsumption)
    (elimination : ∀ tool, (put tool state.1).elimination = state.1.elimination)
    (batch : ∀ tool, (put tool state.1).batchElimination = state.1.batchElimination) :
    (use get put body).Fares state Leaves fun _ _ => True := by
  refine (use_meets ⟨lasts _, safe⟩).imp ?_ fun _ _ _ => trivial
  rintro status ⟨_, engine⟩ ⟨tool, rfl, endures⟩
  have epoch : engine.arena.epoch = state.2.arena.epoch := endures.arena.epoch
  refine ⟨spans.endures endures (elimination tool ▸ spans.heap), fun _ => ?_⟩
  obtain ⟨first, second, third⟩ := current
  exact ⟨epoch.symm ▸ subsumption tool ▸ first, epoch.symm ▸ elimination tool ▸ second,
    epoch.symm ▸ batch tool ▸ third⟩

end Toolbox

variable [Realm]

/-- Applying root literals at the root can lack nothing. -/
theorem Units.safe_process {admitted : Breakdown → Prop} {state : Tool Unit × Engine}
    (sound : state.2.Sound) (orderly : state.2.trail.Orderly) : process.Safe admitted state := by
  have applies : ∀ tool : Tool Unit, (liftM Engine.propagateUnits.attempt :
      Work Unit (Except Error Unit)).Safe admitted (tool, state.2) :=
    fun _ => .lift (.attempt (Engine.safe_propagateUnits sound (.inr orderly)))
  refine .step rfl (.step (Work.cancelToRoot_of_sound sound) (.step rfl ?_))
  refine .bind (applies _) .trivial fun _ _ _ => ?_
  exact .step rfl (.step rfl (.lift Engine.safe_conclude))

/-- The solver of binary clauses can lack nothing. -/
theorem TwoSat.safe_process {admitted : Breakdown → Prop} {state : Tool Unit × Engine}
    (strict : ¬ Realm.Lenient) (sound : state.2.Sound) (settled : state.2.Settled) :
    process.Safe admitted state := by
  refine Work.safe_process fun tool _ _ => ?_
  have works : Works .propagation Engine.propagateUnits state.2 _ :=
    Probing.works_propagateUnits settled
  cases ended : Engine.propagateUnits state.2 with
  | done value applied =>
    obtain ⟨leads, isApplied⟩ := (works sound).done_of_eq ended
    obtain ⟨graph, built, made, full⟩ := Engine.implications_returns (leads.sound sound)
    have finishes := TwoSat.run_finishes sound settled.orderly strict isApplied ended made full tool
    exact fun why stuck => (finishes.safe why stuck).elim
  | failed cause after =>
    have refused : (liftM Engine.propagateUnits : Work Unit Unit) (tool, state.2) =
        .failed cause (tool, after) := by
      change Run.onSecond Engine.propagateUnits (tool, state.2) = _
      unfold Run.onSecond
      dsimp only
      rw [ended]
    exact .of_failed (Run.bind_of_failed refused)
  | stuck why =>
    have never : Engine.propagateUnits.Safe (fun _ => False) state.2 :=
      Engine.safe_propagateUnits sound (.inr settled.orderly)
    exact (never why ended).elim

/-- Subsumption can lack nothing. -/
theorem Subsumer.process_fares {state : Tool Subsumer × Engine} (strict : ¬ Realm.Lenient)
    (sound : state.2.Sound) (orderly : state.2.trail.Orderly) (fresh : Fresh state) :
    process.Fares state (fun status after => state.2.Endures after.2 ∧
      (status ≠ .unsat → Fresh after)) fun _ _ => False := by
  have returns : process.Returns state _ := process_stays_fresh strict sound orderly fresh
  exact .of_returns ((returns.and_ends ((tracks_process : Lasts _) state)).imp fun _ _ held => held.symm)

namespace Toolbox

variable {tools : Toolbox} {engine : Engine} {state : Toolbox × Engine}

/-- A technique that runs in passes can lack nothing but names, and it leaves what the next
one needs. -/
theorem process_fares {technique : Technique} (other : technique ≠ .renumbering)
    (fit : state.2.Fit) (spans : state.1.Spans state.2)
    (current : state.1.Current state.2.arena.epoch) :
    (process technique).Fares state Leaves fun _ _ => True := by
  obtain ⟨sound, orderly, strict⟩ := (⟨fit.toSound, fit.settled.orderly, fit.strict⟩ :
    state.2.Sound ∧ state.2.trail.Orderly ∧ ¬ Realm.Lenient)
  unfold process useSubsumption useElimination
  cases technique with
  | units =>
    exact use_fares spans current (Units.safe_process sound orderly) Units.lasts_process
      (fun _ => rfl) (fun _ => rfl) fun _ => rfl
  | twoSat =>
    exact use_fares spans current (TwoSat.safe_process strict sound fit.settled)
      tracks_twoSat (fun _ => rfl) (fun _ => rfl) fun _ => rfl
  | equivalences =>
    refine use_fares spans current (Work.safe_process fun _ _ _ => ?_)
      Equivalence.tracks_process (fun _ => rfl) (fun _ => rfl) fun _ => rfl
    exact Equivalence.safe_run strict (by exact sound) (by exact orderly) (.inr rfl)
  | probing =>
    exact use_fares spans current (Probing.safe_process strict sound fit.settled spans.head)
      Probing.lasts_process (fun _ => rfl) (fun _ => rfl) fun _ => rfl
  | blockedClauses =>
    refine use_fares spans current ?_ BlockedQueue.tracks_process (fun _ => rfl) (fun _ => rfl)
      fun _ => rfl
    obtain ⟨_, _, ended, _⟩ := BlockedQueue.process_returns sound orderly strict
    exact .of_done ended
  | subsumption =>
    have fresh : Subsumer.Fresh (state.1.subsumption, state.2) := current.subsumption
    refine (use_meets (Subsumer.process_fares strict sound orderly fresh)).imp ?_
      fun _ _ _ => trivial
    rintro status ⟨_, engine⟩ ⟨tool, rfl, endures, fresh⟩
    have epoch : engine.arena.epoch = state.2.arena.epoch := endures.arena.epoch
    exact ⟨spans.endures endures spans.heap, fun isOpen => ⟨fresh isOpen,
      epoch.symm ▸ current.elimination, epoch.symm ▸ current.batch⟩⟩
  | elimination =>
    refine (use_meets (Eliminator.process_fares strict
      ⟨spans.ranged, spans.heap, current.elimination⟩ sound fit.clean orderly)).imp ?_
      fun _ _ _ => trivial
    rintro status ⟨_, engine⟩ ⟨tool, rfl, endures, heap, queue⟩
    have epoch : engine.arena.epoch = state.2.arena.epoch := endures.arena.epoch
    exact ⟨spans.endures endures heap, fun isOpen => ⟨epoch.symm ▸ current.subsumption,
      epoch.symm ▸ queue isOpen, epoch.symm ▸ current.batch⟩⟩
  | batchElimination =>
    refine (use_meets (BatchEliminator.process_fares strict sound orderly spans.ranged
      current.batch)).imp ?_ fun _ _ _ => trivial
    rintro status ⟨_, engine⟩ ⟨tool, rfl, endures, queue⟩
    have epoch : engine.arena.epoch = state.2.arena.epoch := endures.arena.epoch
    refine ⟨spans.endures endures spans.heap, fun isOpen => ⟨epoch.symm ▸ current.subsumption,
      epoch.symm ▸ current.elimination, fun handle waits => ?_⟩⟩
    exact absurd (queue isOpen ▸ waits) List.not_mem_nil
  | renumbering => exact absurd rfl other

/-- Numbering can lack nothing, and leaves what is there. -/
theorem process_renumbering_fares (sound : state.2.Sound) (spans : state.1.Spans state.2) :
    (process .renumbering).Fares state (fun _ after => after.1.Spans after.2)
      fun _ _ => True := by
  unfold process useRenumbering
  have safe : Numbering.process.Safe (· = .outOfSpace) (state.1.renumbering, state.2) := by
    have builds := fun tool => Numbering.build_returns tool sound
    refine .step rfl (.step rfl ?_)
    obtain ⟨_, ⟨tool, engine⟩, built, _⟩ := builds _
    exact .step built (.step rfl (.step rfl (.step rfl (.lift Engine.safe_conclude))))
  refine (use_meets ⟨(Numbering.tracks_process : Lasts _) _, safe⟩).imp ?_ fun _ _ _ => trivial
  rintro status ⟨_, engine⟩ ⟨tool, rfl, endures⟩
  exact spans.endures endures spans.heap

end Toolbox

end CnfSimplifier
