import CnfSimplifier.Proofs.BoundedRuns
import CnfSimplifier.Proofs.BlockedSides

/-!
# The progress of elimination

A variable that is tried comes out of the heap. If it is eliminated, one variable fewer is
left. If not, nothing but blocked clauses went, and unless some of them did no variable is
reported. Only reported variables go back into the heap, and whatever is done before that,
root literals and subsumption, adds no clause and eliminates no variable. So every turn
makes progress, by the first of three numbers that changes.
-/
namespace CnfSimplifier

/-! ## Variables that are left -/

namespace Trail

variable {name : Nat} {trail middle after : Trail}

/-- The number of variables that are not eliminated. -/
def numLeft (trail : Trail) : Nat := trail.vars.countP fun state => !state.flags.eliminated

/-- Variables are eliminated or left. -/
theorem countP_add_numLeft (trail : Trail) :
    (trail.vars.map VarState.flags).countP VarFlags.eliminated + trail.numLeft =
      trail.vars.size := by
  have split : trail.vars.size = trail.vars.countP (VarFlags.eliminated ∘ VarState.flags) +
      trail.vars.countP fun state => ¬ (VarFlags.eliminated ∘ VarState.flags) state =
        true := Array.size_eq_countP_add_countP
  rw [split, Array.countP_map, numLeft]
  congr 1
  exact Array.countP_congr fun state _ => by simp

theorem SameFlags.numLeft (same : trail.SameFlags after) : after.numLeft = trail.numLeft := by
  have before := trail.countP_add_numLeft
  have now := after.countP_add_numLeft
  rw [same.map_flags, same.size] at now
  omega

theorem Eliminates.of_sameFlags (same : trail.SameFlags middle)
    (eliminates : Eliminates name middle after) : Eliminates name trail after := by
  obtain ⟨between, further, handled⟩ := eliminates
  exact ⟨between, same.trans further, handled⟩

/-- One variable fewer is left after one went. -/
theorem Eliminates.numLeft_lt (eliminates : Eliminates name trail after)
    (kept : ¬ trail.Removed name) : after.numLeft < trail.numLeft := by
  obtain ⟨middle, same, handled⟩ := eliminates
  obtain ⟨marked, set, rfl⟩ := by simpa [handle, Option.bind_eq_some_iff] using handled
  obtain ⟨isMarked, inside⟩ := vars_modify? set
  have changed : marked.vars = middle.vars.modify name fun state =>
      { state with flags := state.flags.set .eliminated true } := by rw [isMarked]
  have known : middle.flags? name = some middle.vars[name].flags := by
    rw [flags?, Array.getElem?_eq_getElem inside, Option.map_some]
  have unmarked : middle.vars[name].flags.eliminated = false := by
    refine Bool.eq_false_iff.2 fun eliminated => kept ⟨_, (same.flags name).symm.trans known, ?_⟩
    rw [VarFlags.isRemoved, eliminated, Bool.true_or]
  have counted := countP_flags_set changed known unmarked
  rw [if_pos (by rfl)] at counted
  have before := middle.countP_add_numLeft
  have now := marked.countP_add_numLeft
  have sizes : marked.vars.size = middle.vars.size := by rw [changed, Array.size_modify]
  have left := same.numLeft
  change marked.numLeft < trail.numLeft
  omega

end Trail

namespace Eliminator

variable {pivot : Nat} {touched : List Nat} {state : Tool Eliminator × Engine} {base after : Engine}

/-! ## Attempts -/

/-- What an attempt comes to. It eliminates the variable, or it adds nothing; and if it
reports variables in that case, it took clauses away. -/
def Advances (pivot : Nat) (touched : List Nat) (before after : Engine) : Prop :=
  Trail.Eliminates pivot before.trail after.trail ∨ before.Wanes after ∧
    (touched = [] ∨ after.arena.contents.card < before.arena.contents.card)

/-- A decision comes to what an attempt comes to. -/
theorem decideElimination_advances {sides : GateSides} {redundant : List Handle}
    (distinct : state.2.arena.Distinct (sides.positive.toList ++ sides.negative.toList))
    (wanes : base.Wanes state.2)
    (fewer : touched = [] ∨ state.2.arena.contents.card < base.arena.contents.card) :
    (decideElimination pivot sides redundant touched).Ends state
      (fun touched after => Advances pivot touched base after.2) fun _ _ => True := by
  unfold decideElimination
  refine .bind forecast_forecasts fun found ⟨tool, engine⟩ ⟨⟨_, same⟩, _, _⟩ => ?_
  dsimp only at same
  subst same
  cases found with
  | none => exact .pure (.inr ⟨wanes, fewer⟩)
  | some forecast =>
    refine .step rfl (.step rfl ?_)
    dsimp only
    split
    · exact .pure (.inr ⟨wanes, fewer⟩)
    have unlimited : ∀ resolvent ∈ resolvents state.2.arena sides.gate pivot
        sides.negative.toList.zipIdx sides.positive.toList.zipIdx,
        WithinLimit 0 resolvent.length := fun _ _ limited => absurd rfl limited
    refine .step rfl (.imp (replaceByResolvents_grows (by exact distinct) (by exact unlimited)) ?_
      fun _ _ _ => trivial)
    exact fun _ _ ⟨_, _, eliminates⟩ => .inl (eliminates.of_sameFlags wanes.flags)

/-- So does one after blocked clauses are gone. -/
theorem afterBlocked_advances {sides : GateSides} {redundant : List Handle}
    (distinct : state.2.arena.Distinct (sides.positive.toList ++ sides.negative.toList)) :
    (afterBlocked pivot sides redundant).Ends state
      (fun touched after => Advances pivot touched state.2 after.2) fun _ _ => True := by
  unfold afterBlocked
  refine .bind ((removeBlockedSide_idles distinct).imp (fun _ _ => id) fun _ _ _ => trivial)
    fun (enough, positive, touched) first ⟨idles, left, _, fewer⟩ => ?_
  have wanes := idles.engine
  dsimp only at left fewer ⊢
  split
  swap
  · exact .pure (.inr ⟨wanes, fewer⟩)
  refine .bind ((removeBlockedSide_idles (left.of_perm List.perm_append_comm)).imp
    (fun _ _ => id) fun _ _ _ => trivial)
    fun (enough, negative, reported) second ⟨further, left, _, less⟩ => ?_
  have sofar := wanes.trans further.engine
  have fewer : reported = [] ∨ second.2.arena.contents.card < state.2.arena.contents.card := by
    rcases less with rfl | less
    · exact fewer.imp_right further.engine.arena.fewer.trans_lt
    · exact .inr (less.trans_le wanes.arena.fewer)
  dsimp only at left ⊢
  have distinct := left.of_perm List.perm_append_comm
  split
  swap
  · exact .pure (.inr ⟨sofar, fewer⟩)
  split
  · refine Run.Looks.bind searchGate_looks_perm.lift fun found ⟨permPositive, permNegative⟩ => ?_
    exact decideElimination_advances (distinct.of_perm (permPositive.append permNegative)) sofar fewer
  · exact .step rfl (decideElimination_advances (by exact distinct) sofar fewer)

/-- An attempt eliminates the variable or adds nothing. -/
theorem eliminate_advances (consistent : state.2.Consistent)
    (removable : state.2.Removable pivot) (positivePivot : 0 < pivot)
    (small : 2 * pivot + 1 < UInt32.size) :
    (eliminate pivot).Ends state (fun touched after => Advances pivot touched state.2 after.2)
      fun _ _ => True := by
  have idle : ∀ after, Ponders state after → Advances pivot [] state.2 after.2 :=
    fun after ponders => .inr ⟨ponders.engine ▸ .refl _, .inl rfl⟩
  refine eliminate_ends consistent.filed.listed removable positivePivot small
    (fun after ponders _ => idle after ponders) (fun after _ _ ponders _ _ => idle after ponders) ?_
  intro after sides redundant ponders begins _
  have distinct : after.2.arena.Distinct (sides.positive.toList ++ sides.negative.toList) := by
    rw [ponders.engine]
    exact distinct_of_sides consistent begins.splits.own begins.splits.others
  rw [← ponders.engine]
  split
  · exact afterBlocked_advances distinct
  · exact decideElimination_advances distinct (.refl _) (.inl rfl)

/-! ## Turns -/

/-- What is left to do are variables, clauses, and names in the heap. -/
theorem progress_eq_numLeft (state : Tool Eliminator × Engine) : progress state =
    (state.2.trail.numLeft, state.2.arena.contents.card, state.1.own.heap.size) := by
  have live : state.2.arena.slots.countP (fun clause => !clause.isDead) =
      state.2.arena.liveClauses.length := by
    rw [← Array.countP_toList, List.countP_eq_length_filter]
    rfl
  rw [Arena.card_contents_eq_length, ← live]
  rfl

/-- A shorter heap is progress if nothing was added. -/
theorem further_of_wanes {before after : Tool Eliminator × Engine} (wanes : before.2.Wanes after.2)
    (shorter : after.1.own.heap.size < before.1.own.heap.size) :
    Further (progress after) (progress before) := by
  have left := wanes.flags.numLeft
  have few := wanes.arena.fewer
  rw [progress_eq_numLeft, progress_eq_numLeft]
  unfold Further
  dsimp only
  omega

/-- An attempt that reports something is progress, whatever becomes of the heap; one that
reports nothing is as long as the heap stays shorter. -/
theorem Advances.further {before after : Tool Eliminator × Engine} {middle : Engine}
    (advances : Advances pivot touched before.2 middle) (kept : ¬ before.2.trail.Removed pivot)
    (wanes : middle.Wanes after.2)
    (moved : touched ≠ [] ∨ after.1.own.heap.size < before.1.own.heap.size) :
    Further (progress after) (progress before) := by
  rcases advances with eliminates | ⟨sofar, fewer⟩
  · have left := wanes.flags.numLeft
    have less := eliminates.numLeft_lt kept
    rw [progress_eq_numLeft, progress_eq_numLeft]
    exact .inl (by dsimp only; omega)
  · rcases moved with reports | shorter
    · have left := (sofar.trans wanes).flags.numLeft
      have less := wanes.arena.fewer.trans_lt (fewer.resolve_left reports)
      rw [progress_eq_numLeft, progress_eq_numLeft]
      exact .inr ⟨left, .inl less⟩
    · exact further_of_wanes (sofar.trans wanes) shorter

section Turns

variable [Realm]

/-- Elimination is at work on a sound engine. -/
structure Working (state : Tool Eliminator × Engine) : Prop where
  sound : state.2.Sound
  clean : state.2.index.dirty = #[]
  orderly : state.2.trail.Orderly
  ready : Ready state.1

theorem Working.of_leads {after : Tool Eliminator × Engine} (working : Working state)
    (leads : state.2.Leads .removal after.2) (ready : Ready after.1) : Working after :=
  ⟨leads.sound working.sound, leads.clean working.clean, leads.orderly working.orderly, ready⟩

/-- The variable in front comes out of the heap. -/
theorem select_ends (working : Working state) : (onHeap VarHeap.select).Ends state
    (fun selected after => Working after ∧ after.2 = state.2 ∧ ∀ name, selected = some name →
      0 < name ∧ after.1.own.heap.size < state.1.own.heap.size) fun _ _ => True := by
  have works : Works .removal (onHeap VarHeap.select) state _ :=
    works_onHeap (((VarHeap.select_ends working.ready.heap).and VarHeap.select_shortens).imp
      (fun _ _ => id) fun _ _ => And.left)
  refine (works working.sound).imp ?_ fun _ _ _ => trivial
  rintro selected after ⟨leads, same, subsumer, ⟨heap, positive⟩, shorter⟩
  exact ⟨working.of_leads leads ⟨subsumer ▸ working.ready.plain, heap⟩, same,
    fun name found => ⟨positive name found, shorter name found⟩⟩

/-- Every turn makes progress: it eliminates a variable, or it takes clauses away without
that, or it shortens the heap without either. -/
theorem step_progresses (working : Working state) : step.Ends state
    (fun goOn after => goOn = true → Further (progress after) (progress state))
    fun _ _ => True := by
  unfold step
  refine .bind (select_ends working) fun selected taken ⟨working, same, shortens⟩ => ?_
  cases selected with
  | none => exact .pure nofun
  | some name =>
  obtain ⟨positive, shorter⟩ := shortens name rfl
  refine .bind (spend_ponders _) fun enough paid ⟨own, engine⟩ => ?_
  have working : Working paid :=
    working.of_leads (engine.symm ▸ .refl working.sound) (working.ready.of_own own)
  rw [← own] at shorter
  rw [← engine] at same
  split
  swap
  · exact .pure nofun
  refine Run.Looks.bind Run.Looks.read.lift fun isRemovable found => ?_
  split
  swap
  · exact .pure fun _ => further_of_wanes (same ▸ .refl _) shorter
  next yes =>
  rw [yes] at found
  have removable := Engine.removable_of_isRemovable? found
  have attempts : (eliminate name).Ends paid
      (fun touched after => Advances name touched state.2 after.2 ∧
        after.1.own.heap = paid.1.own.heap) fun _ _ => True := by
    have works := (worksOn_eliminate removable positive .refl).works working.sound
    refine ((eliminate_advances (working.sound.consistent working.clean) removable positive
      (removable.small working.sound)).and works).imp ?_ fun _ _ _ => trivial
    rintro touched after ⟨advances, _, ⟨held, _⟩, _⟩
    exact ⟨same ▸ advances, held.heap⟩
  have kept : ¬ state.2.trail.Removed name := same ▸ removable.kept
  refine .bind attempts fun touched tried ⟨advances, heap⟩ => ?_
  split
  next isEmpty =>
    refine .pure fun _ => advances.further kept (.refl _) (.inr ?_)
    rwa [heap]
  next reports =>
    have rest : Idle (do
        Engine.propagateUnits
        onSubsumer Subsumer.drain
        (touched.filter (· != name)).forM offer
        return true) :=
      .bind (.lift Engine.tracks_propagateUnits) fun _ =>
        .bind (.onSubsumer Subsumer.made_drain.tracks) fun _ =>
          .bind (.forM fun _ => .offer) fun _ => .pure
    refine (rest tried).imp (fun _ after idles _ => ?_) fun _ _ _ => trivial
    exact advances.further kept idles.engine (.inl fun none_ => reports (by rw [none_]; rfl))

end Turns

end Eliminator

end CnfSimplifier
