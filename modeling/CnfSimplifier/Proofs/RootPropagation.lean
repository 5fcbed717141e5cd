import CnfSimplifier.Units
import CnfSimplifier.Proofs.Storing

/-!
# Applying root assignments

A true root literal lets the clauses that contain it go, since the literal alone is
part of each; its complement is taken out of the others, which follow without it.
Root literals stay, so this is right however long ago the literal was assigned.
-/
namespace CnfSimplifier.Engine

variable {scope : Scope} {engine : Engine} {literal : Literal}

/-- Root literals stay. -/
theorem Leads.mem_root [Realm] {after : Engine} (leads : engine.Leads scope after)
    (atRoot : literal ∈ engine.trail.facts) : literal ∈ after.trail.facts := by
  obtain ⟨more, root⟩ := Steps.root_append leads.steps
  change literal ∈ after.picture.root
  rw [root]
  exact List.mem_append_left more atRoot

/-- A clause with a literal that is false at the root follows without it. -/
theorem rup_erase_of_false {handle : Handle} {clause : Clause}
    (live : engine.arena.live? handle = some clause)
    (falsified : literal.complement ∈ engine.trail.facts) :
    Rup engine.picture.formula (clause.literals.erase literal) := by
  refine ⟨clause.literals, .inl (Arena.contents_of_live live), fun other member => ?_⟩
  by_cases same : other = literal
  · subst same
    refine .unit (Picture.mem_formula_of_root falsified) List.mem_cons_self ?_
    exact fun unit single different => absurd (List.mem_singleton.1 single) different
  · exact .assumption (mem_negations ((List.mem_erase_of_ne same).2 member))

/-- Clauses went or lost literals. -/
structure Thins (engine after : Engine) : Prop where
  fewer : ∀ handle clause, after.arena.live? handle = some clause →
    ∃ old, engine.arena.live? handle = some old ∧ clause.literals ⊆ old.literals
  applied : after.applied = engine.applied

variable {middle after : Engine} {handle : Handle} {clause : Clause}

theorem Thins.refl : Thins engine engine :=
  ⟨fun _ clause live => ⟨clause, live, List.Subset.refl _⟩, rfl⟩

theorem Thins.trans (first : Thins engine middle) (second : Thins middle after) :
    Thins engine after := by
  refine ⟨fun handle clause live => ?_, second.applied.trans first.applied⟩
  obtain ⟨between, liveBetween, small⟩ := second.fewer handle clause live
  obtain ⟨old, liveOld, smaller⟩ := first.fewer handle between liveBetween
  exact ⟨old, liveOld, fun literal member => smaller (small member)⟩

theorem Removes.thins (removes : Removes engine handle clause after)
    (live : engine.arena.live? handle = some clause) : Thins engine after :=
  ⟨fun _ found liveFound => ⟨found, removes.live_of_live live liveFound, List.Subset.refl _⟩,
    removes.applied⟩

/-- A strengthened clause is thinner. -/
theorem Strengthens.thins (strengthens : Strengthens engine handle clause literal after)
    (live : engine.arena.live? handle = some clause) : Thins engine after := by
  refine ⟨fun other found liveFound => ?_, strengthens.applied⟩
  by_cases same : other = handle
  · subst same
    refine ⟨clause, live, ?_⟩
    rw [strengthens.left found liveFound]
    exact List.erase_subset
  · rw [Arena.live?_eq_some, strengthens.others other same] at liveFound
    exact ⟨found, Arena.live?_eq_some.2 liveFound, List.Subset.refl _⟩

/-- No clause of a list has a literal. -/
def Lacks (engine : Engine) (literal : Literal) (handles : List Handle) : Prop :=
  ∀ handle ∈ handles, ∀ clause, engine.arena.live? handle = some clause → literal ∉ clause.literals

theorem Lacks.cons {handles : List Handle}
    (first : ∀ clause, engine.arena.live? handle = some clause → literal ∉ clause.literals)
    (rest : Lacks engine literal handles) : Lacks engine literal (handle :: handles) :=
  List.forall_mem_cons.2 ⟨first, rest⟩

/-- Clauses with a true literal go. -/
theorem works_removeSatisfied [Realm] (handles : List Handle)
    (atRoot : literal ∈ engine.trail.facts) :
    Works scope (removeSatisfied literal handles) engine fun _ after =>
      Thins engine after ∧ Lacks after literal handles := by
  induction handles generalizing engine with
  | nil => exact .pure ⟨.refl, by simp [Lacks]⟩
  | cons handle rest ih =>
    unfold removeSatisfied
    refine .look looks_look fun holds asked => ?_
    subst asked
    split
    next held =>
      obtain ⟨clause, live, member⟩ := Arena.holds_iff.1 held
      refine (works_removeClause_of_root live member atRoot).bind fun _ middle _ removes => ?_
      refine (ih (by rw [removes.trail]; exact atRoot)).imp fun _ after ⟨thins, lacks⟩ => ?_
      refine ⟨(removes.thins live).trans thins, .cons (fun found liveFound => ?_) lacks⟩
      obtain ⟨old, liveOld, _⟩ := thins.fewer handle found liveFound
      rw [removes.live?_self live] at liveOld
      cases liveOld
    next without =>
      refine (ih atRoot).imp fun _ after ⟨thins, lacks⟩ => ⟨thins, .cons ?_ lacks⟩
      intro found liveFound inside
      obtain ⟨old, liveOld, small⟩ := thins.fewer handle found liveFound
      exact without (Arena.holds_iff.2 ⟨old, liveOld, small inside⟩)

/-- Clauses lose a false literal. -/
theorem works_removeFalsified [Realm] (handles : List Handle)
    (falsified : literal.complement ∈ engine.trail.facts) :
    Works scope (removeFalsified literal handles) engine fun _ after =>
      Thins engine after ∧ Lacks after literal handles := by
  induction handles generalizing engine with
  | nil => exact .pure ⟨.refl, by simp [Lacks]⟩
  | cons handle rest ih =>
    refine .of_sound fun (sound : engine.Sound) => ?_
    unfold removeFalsified
    refine .look looks_look fun holds asked => ?_
    subst asked
    split
    next held =>
      obtain ⟨clause, live, member⟩ := Arena.holds_iff.1 held
      have nodup := (sound.wellFormed.admits _ (Arena.contents_of_live live)).nodup
      refine (works_strengthen live member (rup_erase_of_false live falsified)).bind
        fun _ middle leads strengthens => ?_
      refine (ih (leads.mem_root falsified)).imp fun _ after ⟨thins, lacks⟩ => ?_
      refine ⟨(strengthens.thins live).trans thins, .cons (fun found liveFound inside => ?_) lacks⟩
      obtain ⟨old, liveOld, small⟩ := thins.fewer handle found liveFound
      have left := small inside
      rw [strengthens.left old liveOld] at left
      exact nodup.not_mem_erase left
    next without =>
      refine (ih falsified).imp fun _ after ⟨thins, lacks⟩ => ⟨thins, .cons ?_ lacks⟩
      intro found liveFound inside
      obtain ⟨old, liveOld, small⟩ := thins.fewer handle found liveFound
      exact without (Arena.holds_iff.2 ⟨old, liveOld, small inside⟩)

/-- Where the listed clauses lack a literal all clauses do. -/
theorem lacks_all {handles : Array Handle} (inStep : engine.InStep) (thins : Thins engine after)
    (listed : engine.index.list? literal = some handles)
    (lacks : Lacks after literal handles.toList) :
    ∀ handle clause, after.arena.live? handle = some clause → literal ∉ clause.literals := by
  intro handle clause live inside
  obtain ⟨old, liveOld, small⟩ := thins.fewer handle clause live
  exact lacks handle (inStep.listed.mem_of_live liveOld (small inside) listed) clause live inside

/-- One more root literal was applied. -/
theorem settles_succ (inStep : after.InStep) {next : Nat}
    (settles : after.picture.Settles next) (positive : 0 < literal.var)
    (atNext : after.picture.root[next]? = some literal)
    (lacks : ∀ handle clause, after.arena.live? handle = some clause → literal ∉ clause.literals)
    (lacksComplement : ∀ handle clause, after.arena.live? handle = some clause →
      literal.complement ∉ clause.literals) : after.picture.Settles (next + 1) := by
  have inside : next < after.picture.root.length := (List.getElem?_eq_some_iff.1 atNext).1
  refine ⟨inside, fun root member mentions => ?_⟩
  rw [List.take_add_one, List.mem_append] at member
  rcases member with earlier | last
  · exact settles.unmentioned root earlier mentions
  · have isNext : root = literal := by
      rw [atNext] at last
      simpa using last
    subst isNext
    obtain ⟨_, clause, other, otherInside, same⟩ := mentions
    obtain ⟨slot, found, atSlot, alive, rfl⟩ := Arena.mem_contents.1 clause
    have live := Arena.live?_handleAt inStep.space.le atSlot alive
    rcases Literal.eq_or_eq_complement positive same with rfl | rfl
    · exact lacks _ found live otherInside
    · exact lacksComplement _ found live otherInside

/-- A literal of the trail may be passed over, or counted before it is applied. -/
theorem Sound.advance [Realm] (sound : engine.Sound) :
    Sound { engine with applied := engine.applied + 1 } := by
  refine ⟨⟨sound.toFiled, sound.trail, fun literal member => sound.due literal ?_⟩,
    sound.wellFormed⟩
  rw [show engine.trail.literals.toList.drop (engine.applied + 1) = _ from
    (List.drop_drop).symm] at member
  exact List.mem_of_mem_drop member

/-- Root literals are applied one by one until none is left. -/
theorem works_applyUnits [Realm] (fuel : Nat) :
    Works scope (applyUnits fuel) engine fun _ after =>
      after.trail.literals.size ≤ after.applied := by
  induction fuel generalizing engine with
  | zero => exact .stop
  | succ fuel ih =>
    refine .of_sound fun (sound : engine.Sound) => ?_
    unfold applyUnits
    refine .look looks_look fun found asked => ?_
    cases found with
    | none => exact .pure (Array.getElem?_eq_none_iff.1 asked.symm)
    | some literal =>
      have here : engine.trail.literals.toList[engine.applied]? = some literal := by
        rw [Array.getElem?_toList]
        exact asked.symm
      have atRoot : literal ∈ engine.trail.facts := by
        refine sound.due literal (List.mem_iff_getElem?.2 ⟨0, ?_⟩)
        rw [List.getElem?_drop, Nat.add_zero, here]
      have positive := (sound.wellFormed.known literal atRoot).1
      -- While the literal is being applied the counter is ahead.
      let counted := { engine with applied := engine.applied + 1 }
      have soundCounted : counted.Sound := sound.advance
      have goesCounted : engine.Goes scope counted :=
        ⟨soundCounted.toInStep, fun _ => .of_subset (.refl _) rfl subset_rfl fun _ => id, id, id, id,
          rfl, rfl, rfl⟩
      have rest : Works scope (do
          removeSatisfied literal (← occurrences literal)
          removeFalsified literal.complement (← occurrences literal.complement)
          applyUnits fuel) counted fun _ after => after.trail.literals.size ≤ after.applied ∧
            (engine.Settled → after.picture.Settles after.applied) := by
        refine .look looks_occurrences fun satisfied ⟨handles, listed, isList⟩ => ?_
        subst isList
        refine .bind (works_removeSatisfied _ atRoot) fun _ middle leads ⟨thins, lacks⟩ => ?_
        refine .look looks_occurrences fun falsified ⟨others, listedOthers, isOthers⟩ => ?_
        subst isOthers
        have complement : literal.complement.complement ∈ middle.trail.facts := by
          rw [Literal.complement_complement positive]
          exact leads.mem_root atRoot
        refine .bind (works_removeFalsified _ complement) fun _ last leadsLast
          ⟨thinsLast, lacksLast⟩ => ?_
        refine ih.leads.imp fun _ after ⟨leadsAfter, all⟩ => ⟨all, fun settled => ?_⟩
        have leadsBoth : counted.Leads scope last := leads.trans leadsLast
        refine leadsAfter.applied ⟨leadsBoth.orderly settled.orderly, ?_⟩
        obtain ⟨more, appended⟩ := Steps.root_append leadsBoth.steps
        have atNext : last.picture.root[engine.applied]? = some literal := by
          rw [← settled.orderly] at here
          have inside := (List.getElem?_eq_some_iff.1 here).1
          rw [appended]
          exact (List.getElem?_append_left inside).trans here
        have lacksFirst := lacks_all soundCounted.toInStep thins listed lacks
        change last.picture.Settles last.applied
        rw [thinsLast.applied, thins.applied]
        refine settles_succ leadsLast.inStep (Steps.settles leadsBoth.steps settled.settles) positive
          atNext ?_ ?_
        · intro handle clause live inside
          obtain ⟨old, liveOld, small⟩ := thinsLast.fewer handle clause live
          exact lacksFirst handle old liveOld (small inside)
        · exact lacks_all leads.inStep thinsLast listedOthers lacksLast
      intro _
      refine .step rfl ((rest soundCounted).imp ?_ fun cause after fails => ?_)
      · rintro _ after ⟨leads, all, applied⟩
        exact ⟨⟨goesCounted.trans leads.toGoes, leads.steps, applied⟩, all⟩
      · exact ⟨goesCounted.trans fails.toGoes, fails.reached, fails.reason⟩

/-- Applying the root assignment is propagation. -/
theorem works_propagateUnits [Realm] : Works scope propagateUnits engine fun _ after =>
    after.trail.literals.size ≤ after.applied := by
  unfold propagateUnits
  exact .look looks_look fun trail _ => works_applyUnits _

/-- At the root no level is open that could be closed. -/
theorem cancelToRoot_of_sound [Realm] (sound : engine.Sound) :
    cancelToRoot engine = .done () engine := by
  simp only [cancelToRoot, updateTrail, Run.update,
    Trail.cancelUntil_of_atRoot sound.trail.atRoot]
  rfl

end CnfSimplifier.Engine

/-- Where no level is open there is none to close. -/
theorem CnfSimplifier.Work.cancelToRoot_of_sound [Realm] {τ : Type} {state : Tool τ × Engine}
    (sound : state.2.Sound) :
    (liftM Engine.cancelToRoot : Work τ Unit) state = .done () state := by
  change (Engine.cancelToRoot state.2).mapState _ = _
  rw [Engine.cancelToRoot_of_sound sound]
  rfl
