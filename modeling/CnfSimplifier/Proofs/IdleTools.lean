import CnfSimplifier.Proofs.Dealings

/-!
# Tools between runs

Tools hold handles of clauses in their queues, and a compaction has to carry them
over. They do so only during a run: at its end everything that is bound to it is
forgotten. Between calls no tool holds a handle, so a compaction that is made there
finds nothing in the tools that could be stale.
-/
namespace CnfSimplifier

namespace Toolbox

variable {tools after : Toolbox}

/-- No tool holds a handle of a clause. -/
structure Idle (tools : Toolbox) : Prop where
  subsumption : tools.subsumption.own.queue = []
  elimination : tools.elimination.own.subsumer.own.queue = []
  batch : tools.batchElimination.own.own.queue = []

theorem idle_ofVars (numVars : Nat) : (ofVars numVars).Idle := ⟨rfl, rfl, rfl⟩

theorem Idle.handle (idle : tools.Idle) (event : Event) : (tools.handle event).Idle :=
  ⟨idle.subsumption, by cases event <;> exact idle.elimination, idle.batch⟩

theorem Idle.numberVar (idle : tools.Idle) (name : Nat) : (Simplifier.numberVar name tools).Idle := by
  unfold Simplifier.numberVar
  dsimp only
  split
  · exact ⟨idle.subsumption, idle.elimination, idle.batch⟩
  · exact idle

/-- Whoever forgets everything is idle. -/
theorem idle_of_forgetAll (forgot : tools.forgetAll = some after) : after.Idle := by
  simp only [forgetAll, passes, List.foldlM_cons, List.foldlM_nil, forget, reset,
    Option.bind_eq_bind, Option.bind_some, Option.pure_def, Option.bind_eq_some_iff,
    Option.some.injEq] at forgot
  obtain ⟨_, ⟨own, cleared, rfl⟩, rfl⟩ := forgot
  simp only [Eliminator.reset, Option.bind_eq_bind, Option.bind_eq_some_iff, Option.pure_def,
    Option.some.injEq] at cleared
  obtain ⟨heap, _, rfl⟩ := cleared
  exact ⟨rfl, rfl, rfl⟩

/-- Idle tools have nothing to carry over. -/
theorem Idle.relocate (idle : tools.Idle) (relocation : Relocation) :
    tools.relocate relocation = some tools := by
  have empty : ∀ subsumer : Subsumer, subsumer.queue = [] →
      subsumer.relocate relocation = some subsumer := by
    rintro ⟨queue, graph⟩ rfl
    rfl
  simp only [Toolbox.relocate, Eliminator.relocate, empty _ idle.subsumption,
    empty _ idle.elimination, empty _ idle.batch, Option.bind_eq_bind, Option.bind_some,
    Option.pure_def]

end Toolbox

namespace Simplifier

variable {simplifier : Simplifier}

/-- A compaction leaves idle tools idle. -/
theorem collectGarbage_idle (idle : simplifier.tools.Idle) :
    collectGarbage.Ends simplifier (fun _ after => after.tools.Idle)
      fun _ after => after.tools.Idle := by
  unfold collectGarbage
  refine .step rfl ?_
  dsimp only
  split
  · refine .seq (ends_onEngine (Run.Ends.trivial.imp (fun relocation _ _ => ?_) fun _ _ _ => idle))
    refine updateTools_ends fun tools moved => ?_
    rw [idle.relocate, Option.some.injEq] at moved
    exact moved ▸ idle
  · exact .pure idle

/-- At the end of a run everything is forgotten. -/
theorem close_idle : close.Ends simplifier (fun _ after => after.tools.Idle) fun _ _ => True := by
  unfold close
  refine .seq (updateTools_ends fun tools forgot => ?_)
  have idle : tools.Idle := Toolbox.idle_of_forgetAll forgot
  refine .seq ((collectGarbage_idle idle).imp (fun _ tidy idle => ?_) fun _ _ _ => trivial)
  exact .step rfl (.step rfl (.step rfl (.pure idle)))

/-- Whatever the tools do during a run, they are idle at its end. -/
theorem run_idle {inprocessing : Bool} (idle : simplifier.tools.Idle) :
    (run inprocessing).Ends simplifier (fun _ after => after.tools.Idle) fun _ _ => True := by
  unfold run
  refine .step rfl (.step rfl ?_)
  split
  · exact .pure idle
  split
  · exact .step rfl (.pure idle)
  refine .step rfl (.seq (Run.Ends.trivial.imp (fun _ _ _ => ?_) fun _ _ _ => trivial))
  refine .step rfl (.step rfl (.seq (Run.Ends.trivial.imp (fun status _ _ => ?_)
    fun _ _ _ => trivial)))
  split
  · exact .seq (Run.Ends.trivial.imp (fun _ _ _ => close_idle) fun _ _ _ => trivial)
  · exact close_idle

end Simplifier

end CnfSimplifier
