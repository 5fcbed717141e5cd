import CnfSimplifier.Proofs.Equivalence
import CnfSimplifier.Proofs.ComponentTurns
import CnfSimplifier.Proofs.Growth
import CnfSimplifier.Proofs.SubsumptionSearch

/-!
# Substitution does not get stuck

The literals of components are literals of the formula, so all that is asked of them has
an answer. While the images are added the old clauses stay where they are, and when they
are removed their handles still name them. What can be missing is a name for another
clause: an image takes one at most, and there are no more images than slots.
-/
namespace CnfSimplifier

/-! ## The order of handles -/

namespace Handle

theorem le_iff {a b : Handle} : a.le b = true ↔ a.epoch.toNat < b.epoch.toNat ∨
    (a.epoch.toNat = b.epoch.toNat ∧ a.slot.toNat ≤ b.slot.toNat) := by
  simp [le, UInt32.lt_iff_toNat_lt, UInt32.le_iff_toNat_le, UInt32.toNat_inj]

theorem le_trans (a b c : Handle) (first : a.le b = true) (second : b.le c = true) :
    a.le c = true := by
  rw [le_iff] at *
  omega

theorem le_total (a b : Handle) : (a.le b || b.le a) = true := by
  rw [Bool.or_eq_true, le_iff, le_iff]
  omega

theorem le_antisymm (a b : Handle) (first : a.le b = true) (second : b.le a = true) : a = b := by
  rw [le_iff] at *
  have epoch : a.epoch = b.epoch := UInt32.toNat_inj.1 (by omega)
  have slot : a.slot = b.slot := UInt32.toNat_inj.1 (by omega)
  cases a
  cases b
  exact congrArg₂ Handle.mk epoch slot

end Handle

/-- Repetitions stand side by side in a list that is in order. -/
theorem nodup_dropRepeats {α : Type} [DecidableEq α] {before : α → α → Prop} {items : List α}
    (antisymm : ∀ a b, before a b → before b a → a = b) (ordered : items.Pairwise before) :
    (dropRepeats items).Nodup := by
  fun_induction dropRepeats items with
  | case1 => exact .nil
  | case2 a => exact List.nodup_singleton a
  | case3 a rest ih => exact ih (List.pairwise_cons.1 ordered).2
  | case4 a b rest different ih =>
    obtain ⟨first, orderedRest⟩ := List.pairwise_cons.1 ordered
    refine List.nodup_cons.2 ⟨fun member => ?_, ih orderedRest⟩
    rcases List.mem_cons.1 ((mem_dropRepeats _).1 member) with same | later
    · exact different same
    · exact different (antisymm a b (first b List.mem_cons_self)
        ((List.pairwise_cons.1 orderedRest).1 a later))

namespace Equivalence

variable {admitted : Breakdown → Prop} {engine base : Engine} {graph : Implications}
  {substitution : Substitution} {state : Tool Unit × Engine}

/-! ## Choosing representatives -/

/-- The first frozen member can be found. -/
theorem exists_firstFrozen? {members : List Literal}
    (inside : ∀ literal ∈ members, literal.var < engine.trail.vars.size) :
    ∃ frozen, firstFrozen? engine members = some frozen := by
  induction members with
  | nil => exact ⟨none, rfl⟩
  | cons literal rest ih =>
    obtain ⟨own, others⟩ := List.forall_mem_cons.1 inside
    obtain ⟨frozen, found⟩ := ih others
    have asked : engine.isFrozen? literal.var = some engine.trail.vars[literal.var].flags.frozen := by
      rw [Engine.isFrozen?, Trail.flags?, Array.getElem?_eq_getElem own]
      rfl
    rw [firstFrozen?, asked, found, Option.bind_eq_bind, Option.bind_some]
    split <;> exact ⟨_, rfl⟩

/-- Members can be assigned a representative. -/
theorem exists_assignMembers? {representative : Literal} {members : List Literal}
    (inside : ∀ literal ∈ members, literal.var < engine.trail.vars.size)
    (substitution : Substitution) :
    ∃ after, assignMembers? engine representative members substitution = some after := by
  induction members generalizing substitution with
  | nil => exact ⟨substitution, rfl⟩
  | cons literal rest ih =>
    obtain ⟨own, others⟩ := List.forall_mem_cons.1 inside
    obtain ⟨removable, asked⟩ := Engine.exists_isRemovable? own
    unfold assignMembers?
    split
    · exact ih others _
    · rw [asked]
      exact ih others _

/-- Representatives can be chosen for lists of literals of the formula. -/
theorem safe_chooseAll {components : List (List Literal)} (sound : engine.trail.Sound)
    (nodup : ∀ members ∈ components, members.Nodup)
    (inside : ∀ members ∈ components, ∀ literal ∈ members,
      0 < literal.var ∧ literal.var < engine.trail.vars.size)
    (size : substitution.handled.size = engine.trail.vars.size) :
    (chooseAll components substitution).Safe admitted engine := by
  induction components generalizing substitution with
  | nil => exact .pure
  | cons component rest ih =>
    obtain ⟨nodupOwn, nodupRest⟩ := List.forall_mem_cons.1 nodup
    obtain ⟨own, others⟩ := List.forall_mem_cons.1 inside
    have ascending := ascending_of_nodup nodupOwn
    have ownSorted : ∀ literal ∈ sortBy (fun a b => decide (a ≤ b)) component,
        0 < literal.var ∧ literal.var < engine.trail.vars.size :=
      fun literal member => own literal ((sortBy_perm component).mem_iff.1 member)
    unfold chooseAll
    dsimp only
    generalize sortBy (fun a b => decide (a ≤ b)) component = members at *
    split
    next literal paired =>
      obtain ⟨present, bound⟩ := ownSorted literal (mem_of_complementaryPair? ascending paired).1
      exact .bind (Engine.safe_assignUnit sound.atRoot (by rwa [Literal.var_complement present])) .trivial
        fun _ _ _ => .fail
    next =>
      match members, ownSorted with
      | [], _ => exact ih nodupRest others size
      | least :: later, ownSorted =>
        have bounds := fun literal member => (ownSorted literal member).2
        have place : least.var < substitution.handled.size := by
          rw [size]
          exact bounds least List.mem_cons_self
        obtain ⟨frozen, looked⟩ := exists_firstFrozen? bounds
        obtain ⟨after, assigned⟩ :=
          @exists_assignMembers? _ (frozen.getD least) _ bounds substitution
        obtain ⟨_, extends_⟩ := extends_of_assignMembers? assigned
        refine .step (Run.access_of_eq_some (Array.getElem?_eq_getElem place)) ?_
        split
        · exact ih nodupRest others size
        · refine .step (Run.read_of_eq_some looked) (.step (Run.read_of_eq_some assigned) ?_)
          exact ih nodupRest others (extends_.size.trans size)

/-! ## Adding the images -/

/-- The occurrences of literals can be counted. -/
theorem exists_literalCounts? {literals : List Literal} (inStep : engine.InStep)
    (inside : ∀ literal ∈ literals, literal.var < engine.trail.vars.size) :
    ∃ counts, literalCounts? engine.index literals = some counts ∧
      ∀ entry ∈ counts, entry.1 ∈ literals := by
  induction literals with
  | nil => exact ⟨[], rfl, by simp⟩
  | cons literal rest ih =>
    obtain ⟨own, others⟩ := List.forall_mem_cons.1 inside
    obtain ⟨counts, counted, among⟩ := ih others
    obtain ⟨entry, found⟩ := inStep.roomy.exists_entry own
    have count : engine.index.count? literal = some entry.count := by
      rw [Occurrences.count?, found, Option.map_some]
    refine ⟨(literal, entry.count) :: counts, ?_, List.forall_mem_cons.2
      ⟨List.mem_cons_self, fun other member => List.mem_cons_of_mem _ (among other member)⟩⟩
    rw [literalCounts?, count, counted]
    rfl

/-- It can be found out whether a clause is there already. -/
theorem exists_duplicate? {literals : List Literal} (inStep : engine.InStep)
    (inside : ∀ literal ∈ literals, literal.var < engine.trail.vars.size) :
    ∃ twin, duplicate? engine literals = some twin := by
  obtain ⟨counts, counted, among⟩ := exists_literalCounts? inStep inside
  unfold duplicate?
  rw [counted, Option.bind_eq_bind, Option.bind_some]
  split
  next => exact ⟨none, rfl⟩
  next literal count least =>
    have listed := among _ (mem_of_leastBy least)
    obtain ⟨entry, found⟩ := inStep.roomy.exists_entry (inside literal listed)
    rw [Occurrences.list?, found, Option.map_some]
    exact ⟨_, rfl⟩

/-- The images can be added, as long as there are names for clauses. -/
theorem safe_addImages [Realm] {handles : List Handle} (chosen : Chosen graph base substitution)
    (sound : base.Sound)
    (listed : ∀ handle ∈ handles, ∃ clause, base.arena.live? handle = some clause)
    (leads : base.Leads .propagation state.2)
    (adds : Engine.Adds base (Spared substitution.targets) state.2)
    (room : state.2.arena.slots.size + handles.length < UInt32.size ∨ admitted .outOfSpace) :
    (addImages substitution handles).Safe admitted state := by
  induction handles generalizing state with
  | nil => exact .pure
  | cons handle rest ih =>
    obtain ⟨tool, engine⟩ := state
    obtain ⟨⟨original, liveBase⟩, listedRest⟩ := List.forall_mem_cons.1 listed
    obtain ⟨copy, live, same⟩ := adds.older handle original liveBase
    have soundNow : engine.Sound := leads.sound sound
    simp only [List.length_cons] at room
    -- One slot was taken at most.
    have onward : ∀ next : Tool Unit × Engine, engine.Leads .propagation next.2 →
        Engine.Adds engine (Spared substitution.targets) next.2 →
        next.2.arena.slots.size ≤ engine.arena.slots.size + 1 →
        (addImages substitution rest).Safe admitted next :=
      fun next leadsNext addsNext small => ih listedRest (leads.trans leadsNext)
        (adds.trans addsNext) (room.imp_left fun space => by omega)
    have stays : ∀ tool, (addImages substitution rest).Safe admitted (tool, engine) :=
      fun tool => onward (tool, engine) (.refl soundNow) .refl (Nat.le_succ _)
    unfold addImages
    refine .step (Run.lift_of_done (Engine.clause_of_get? (Arena.live?_eq_some.1 live).1)) ?_
    obtain ⟨goOn, budget, spent, _⟩ := Work.spend_done copy.size tool engine
    refine .step spent ?_
    dsimp only
    split
    next => exact stays _
    next =>
    have inside : ∀ literal ∈ sortedLiterals (copy.literals.map substitution.apply),
        literal.var < engine.trail.vars.size := by
      intro literal member
      obtain ⟨source, inCopy, rfl⟩ := List.mem_map.1 (mem_sortedLiterals.1 member)
      have present : base.picture.Present source.var :=
        (sound.wellFormed.admits _ (Arena.contents_of_live liveBase)).present source (same ▸ inCopy)
      have bound : (substitution.apply source).var ≤ base.numVars := (chosen.present_apply present).2.1
      have nonempty := sound.trail.nonempty
      rw [leads.vars_size sound]
      unfold Engine.numVars Trail.numVars at bound
      omega
    obtain ⟨twin, searched⟩ := exists_duplicate? soundNow.toInStep inside
    refine .step (Run.read_of_eq_some searched) ?_
    split
    next twin =>
      obtain ⟨other, liveTwin, _⟩ := live_of_duplicate? searched
      refine .step (Run.lift_of_done (Engine.clause_of_get? (Arena.live?_eq_some.1 liveTwin).1)) ?_
      split
      next =>
        obtain ⟨_, marked, ended, refines, sameClauses, _⟩ :
            (Engine.makeIrredundant twin).Returns engine _ :=
          Engine.makeIrredundant_returns soundNow liveTwin
        have works : Works .propagation (Engine.makeIrredundant twin) engine _ :=
          Engine.works_makeIrredundant liveTwin
        obtain ⟨leadsMarked, _, trail, _⟩ := (works soundNow).done_of_eq ended
        have size := refines.wears.arena.slots.length_eq
        refine .step (Run.lift_of_done ended) (onward _ leadsMarked (.of_sameClauses sameClauses trail) ?_)
        rw [Array.length_toList, Array.length_toList] at size
        exact size.symm.trans_le (Nat.le_succ _)
      next => exact stays _
    next =>
      have works := chosen.works_addImage sound leads liveBase live same
      have added : (Engine.addClause _ _).Ends engine _ fun _ _ => True :=
        ((works soundNow).and (Engine.storeClause_slots soundNow.toInStep)).imp
          (fun _ _ => id) fun _ _ _ => trivial
      have lifted : (liftM (Engine.addClause _ _) : Work Unit _).Ends
          ({ tool with budget := budget }, engine) _ fun _ _ => True := .lift added
      refine .bind (.lift (Engine.safe_storeClause soundNow.roomy ?_)) lifted ?_
      · exact room.imp_left fun space => by
          change engine.arena.slots.size + 1 < _
          omega
      · rintro _ next ⟨_, ⟨leadsNext, addsNext, _⟩, small⟩
        exact onward next leadsNext addsNext small

/-! ## Removing clauses and variables -/

/-- A clause is removed if it is there. -/
theorem safe_removeIfLive {handle : Handle} {clause : Clause} (inStep : engine.InStep)
    (found : engine.arena.get? handle = some clause) :
    (Engine.removeIfLive handle).Safe admitted engine := by
  refine .step (Engine.clause_of_get? found) ?_
  split
  next => exact .pure
  next alive =>
    refine Engine.safe_removeClause inStep.listed (Arena.live?_eq_some.2 ⟨found, ?_⟩)
    exact Bool.eq_false_iff.2 alive

/-- Clauses that are there can be removed one after the other. -/
theorem safe_removeAll {handles : List Handle} (inStep : engine.InStep)
    (found : ∀ handle ∈ handles, ∃ clause, engine.arena.get? handle = some clause) :
    (handles.forM Engine.removeIfLive).Safe admitted engine := by
  induction handles generalizing engine with
  | nil => exact .pure
  | cons handle rest ih =>
    obtain ⟨⟨clause, own⟩, others⟩ := List.forall_mem_cons.1 found
    have ends : (Engine.removeIfLive handle).Ends engine _ fun _ _ => True :=
      Engine.removeIfLive_ends inStep
    refine .bind (safe_removeIfLive inStep own)
      (ends.and ((Engine.made_removeIfLive.tracks : Tracks Engine.WearsTo _) engine)) ?_
    rintro _ after ⟨⟨_, takes, _⟩, wears⟩
    refine ih takes.inStep fun other member => ?_
    obtain ⟨old, foundOld⟩ := others other member
    obtain ⟨new, foundNew, _⟩ := wears.arena.new foundOld
    exact ⟨new, foundNew⟩

/-- A substituted variable is retired. -/
theorem safe_retire {pair : Literal × Literal} (inside : pair.1.var < engine.trail.vars.size) :
    (retire pair.1 pair.2).Safe admitted engine := by
  obtain ⟨trail, handled⟩ :
      ∃ trail, engine.trail.handle (.substituted pair.1.var) = some trail := by
    simp [Trail.handle, Trail.setFlag, Trail.modify?, inside]
  refine .step rfl (.step rfl (.bind ?_ .trivial fun _ _ _ => .of_done rfl))
  exact .step (Engine.updateTrail_of_eq_some handled) (.of_done rfl)

/-- Variables of the formula can be substituted one after the other. -/
theorem safe_retireAll {targets : List (Literal × Literal)} (inStep : engine.InStep)
    (inside : ∀ pair ∈ targets, pair.1.var < engine.trail.vars.size) :
    (targets.forM fun (literal, representative) => retire literal representative).Safe
      admitted engine := by
  induction targets generalizing engine with
  | nil => exact .pure
  | cons pair rest ih =>
    obtain ⟨own, others⟩ := List.forall_mem_cons.1 inside
    have ends : (retire pair.1 pair.2).Ends engine _ fun _ _ => True := retire_ends inStep
    refine .bind (safe_retire own) ends ?_
    rintro _ after ⟨takes, _⟩
    refine ih takes.inStep fun other member => ?_
    have before := others other member
    have same := takes.numVars
    have nonempty := takes.inStep.trail.nonempty
    unfold Engine.numVars Trail.numVars at same
    omega

/-! ## The whole run -/

/-- The clauses that a substitution affects are found. -/
theorem safe_affected {targets : List (Literal × Literal)} (inStep : engine.InStep)
    (inside : ∀ pair ∈ targets, 0 < pair.1.var ∧ pair.1.var < engine.trail.vars.size) :
    (affected targets).Safe admitted engine := by
  induction targets with
  | nil => exact .pure
  | cons pair rest ih =>
    obtain ⟨⟨present, bound⟩, others⟩ := List.forall_mem_cons.1 inside
    refine .look (Engine.safe_occurrences inStep.roomy bound) Engine.looks_occurrences fun _ _ => ?_
    refine .look (Engine.safe_occurrences inStep.roomy ?_) Engine.looks_occurrences fun _ _ => ?_
    · rwa [Literal.var_complement present]
    refine .bind (ih others) (affected_looks inStep fun other member => (others other member).1) ?_
    exact fun _ _ _ => .pure

/-- All clauses with targets can be replaced, as long as there are names for clauses. -/
theorem safe_substitute [Realm] (sound : state.2.Sound) (chosen : Chosen graph state.2 substitution)
    (room : 2 * state.2.arena.slots.size < UInt32.size ∨ admitted .outOfSpace) :
    (substitute substitution).Safe admitted state := by
  have nonempty := sound.trail.nonempty
  have source : ∀ pair ∈ substitution.targets,
      0 < pair.1.var ∧ pair.1.var < state.2.trail.vars.size := by
    intro pair member
    have present := chosen.targets.source pair member
    have bound : pair.1.var ≤ state.2.numVars := present.2.1
    unfold Engine.numVars Trail.numVars at bound
    exact ⟨present.1, by omega⟩
  unfold substitute
  refine .look (.lift (safe_affected sound.toInStep source))
    (affected_looks sound.toInStep fun pair member => (source pair member).1).lift fun found _ => ?_
  refine .step rfl ?_
  dsimp only
  generalize collected : dropRepeats (sortBy Handle.le (found.filter fun handle =>
    (state.2.arena.live? handle).isSome)) = handles
  have listed : ∀ handle ∈ handles, ∃ clause, state.2.arena.live? handle = some clause := by
    intro handle member
    rw [← collected, mem_dropRepeats, mem_sortBy, List.mem_filter, Option.isSome_iff_exists] at member
    exact member.2
  have distinct : state.2.arena.Distinct handles := by
    refine ⟨collected ▸ nodup_dropRepeats Handle.le_antisymm ?_, listed⟩
    exact pairwise_sortBy Handle.le_trans Handle.le_total _
  have few := distinct.length_le sound.space.le
  have names : state.2.arena.slots.size + handles.length < UInt32.size ∨ admitted .outOfSpace :=
    room.imp_left fun small => by omega
  have added := works_addImages chosen sound listed (.refl sound) .refl
  refine .bind (safe_addImages chosen sound listed (.refl sound) .refl names) (added sound) ?_
  rintro _ images ⟨leads, adds, _⟩
  rw [forM_lift, forM_lift]
  have found : ∀ handle ∈ handles, ∃ clause, images.2.arena.get? handle = some clause := by
    intro handle member
    obtain ⟨clause, live⟩ := listed handle member
    obtain ⟨copy, liveCopy, _⟩ := adds.older handle clause live
    exact ⟨copy, (Arena.live?_eq_some.1 liveCopy).1⟩
  have removed : (liftM (handles.forM Engine.removeIfLive) : Work Unit Unit).Ends images _
      fun _ _ => True := .lift (Engine.removeAllLive_ends handles leads.inStep)
  refine .bind (.lift (safe_removeAll leads.inStep found)) removed ?_
  rintro _ after ⟨_, _, takes, _⟩
  refine .lift (safe_retireAll takes.inStep fun pair member => ?_)
  have bound := (source pair member).2
  have sameVars : images.2.trail.vars.size = state.2.trail.vars.size := leads.vars_size sound
  have same : after.2.numVars = images.2.numVars := takes.numVars
  have some_ := takes.inStep.trail.nonempty
  unfold Engine.numVars Trail.numVars at same
  omega

/-- The search for components has an answer, and the engine stays. -/
theorem findComponents_returns (full : graph.Full) :
    (findComponents graph).Returns state fun found after => after.2 = state.2 ∧
      ∀ components, found = some components → graph.Components components := by
  obtain ⟨tool, engine⟩ := state
  obtain ⟨found, budget, ended, components⟩ : (graph.components engine.interrupted).Returns
      tool.budget _ := Implications.components_returns full
  have same : findComponents graph (tool, engine) =
      .done found ({ tool with budget := budget }, engine) := by
    simp only [findComponents, ended]
  exact ⟨found, _, same, rfl, components⟩

/-- A run can lack nothing but names for clauses. -/
theorem safe_run [Realm] (strict : ¬ Realm.Lenient) (sound : state.2.Sound)
    (orderly : state.2.trail.Orderly)
    (room : 2 * state.2.arena.slots.size < UInt32.size ∨ admitted .outOfSpace) :
    run.Safe admitted state := by
  have propagate : ∀ state : Tool Unit × Engine, state.2.Sound → state.2.trail.Orderly →
      (liftM Engine.propagateUnits : Work Unit Unit).Safe admitted state :=
    fun state sound orderly => (Engine.safe_propagateUnits sound (.inr orderly)).lift
  have refines := Engine.propagateUnits_finishes sound strict orderly
  have propagated : (liftM Engine.propagateUnits : Work Unit Unit).Finishes state _ _ := .lift refines
  unfold run
  refine .bind (propagate state sound orderly) propagated.ends fun _ applied ⟨_, refines⟩ => ?_
  have orderly := refines.leads.orderly orderly
  have room : 2 * applied.2.arena.slots.size < UInt32.size ∨ admitted .outOfSpace := by
    have size := refines.wears.arena.slots.length_eq
    rw [Array.length_toList, Array.length_toList] at size
    rwa [← size]
  have reflects : Works .removal Engine.implications applied.2 _ := Engine.works_implications
  obtain ⟨graph, built, made, full, leads, same, reflects, _⟩ :=
    (Engine.implications_returns refines.sound).and_ends (reflects refines.sound)
  refine .step (Run.lift_of_done made) ?_
  split
  next => exact .pure
  obtain ⟨found, ⟨tool, later⟩, searched, unchanged, areComponents⟩ :
      (findComponents graph).Returns (applied.1, built) _ := findComponents_returns full
  obtain rfl : built = later := unchanged.symm
  refine .step searched ?_
  split
  next => exact .pure
  next components =>
  have isFound := areComponents components rfl
  have soundBuilt : built.Sound := leads.sound refines.sound
  have inside : ∀ members ∈ components, ∀ literal ∈ members,
      0 < literal.var ∧ literal.var < built.trail.vars.size := by
    intro members member literal inMembers
    have present := present_of_component reflects (isFound.component members member)
      (isFound.large members member) inMembers
    have bound : literal.var ≤ built.numVars := present.2.1
    have nonempty := soundBuilt.trail.nonempty
    unfold Engine.numVars Trail.numVars at bound
    exact ⟨present.1, by omega⟩
  have size : (Substitution.ofVars built.numVars).handled.size = built.trail.vars.size := by
    have nonempty := soundBuilt.trail.nonempty
    simp only [Substitution.ofVars, Array.size_replicate, Engine.numVars, Trail.numVars]
    omega
  have chooses : Works .propagation (chooseAll components (Substitution.ofVars built.numVars)) built _ :=
    works_chooseAll reflects (fun members member =>
      ⟨isFound.large members member, isFound.component members member⟩) chosen_ofVars
  have chosen : (liftM (chooseAll components (Substitution.ofVars built.numVars)) :
      Work Unit Substitution).Ends (tool, built) _ fun _ _ => True :=
    .lift ((chooses soundBuilt).imp (fun _ _ => id) fun _ _ _ => trivial)
  have safe : (chooseAll components (Substitution.ofVars built.numVars)).Safe admitted built :=
    safe_chooseAll soundBuilt.trail
      (fun members member => (isFound.component members member).nodup) inside size
  refine .step rfl (.bind (.lift safe) chosen ?_)
  rintro substitution ⟨tool, _⟩ ⟨_, _, rfl, chosen, _⟩
  split
  next => exact .pure
  have substituted := works_substitute chosen
  refine .bind (safe_substitute soundBuilt chosen ?_) (substituted soundBuilt) ?_
  · rw [same]
    exact room
  · rintro _ after ⟨further, _⟩
    exact propagate after (further.sound soundBuilt) (further.orderly (leads.orderly orderly))

end Equivalence

end CnfSimplifier
