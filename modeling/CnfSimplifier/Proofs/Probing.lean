import CnfSimplifier.Probing
import CnfSimplifier.Proofs.ImplicationGraph
import CnfSimplifier.Proofs.Propagation
import CnfSimplifier.Proofs.Conclusion

/-!
# Probing

A probe starts when the root assignment was applied to all clauses. Then nothing
is left to propagate at the root, and the literal to be probed is open still. What
it implies follows by unit propagation from the formula and the literal; so a failed
literal refutes itself, and a literal that both literals of a variable imply follows
with the help of two binary clauses.
-/
namespace CnfSimplifier.Probing

variable [Realm]

variable {engine after : Engine} {literal : Literal} {trail : Trail} {implied : Literal}
  {failed : Error → Engine → Prop} {state : Tool Unit × Engine}

/-! ## The root before a probe -/

/-- All root literals were applied to the clauses. -/
structure Applied (engine : Engine) : Prop where
  all : engine.trail.literals.size ≤ engine.applied
  settled : engine.Settled

omit [Realm] in
/-- No clause has a literal of a root variable. -/
theorem Applied.unmentioned (applied : Applied engine) (atRoot : literal ∈ engine.trail.facts) :
    ¬ engine.picture.Mentions literal.var := by
  refine applied.settled.settles.unmentioned literal ?_
  rw [List.take_of_length_le]
  · exact atRoot
  · change engine.trail.facts.length ≤ engine.applied
    rw [applied.settled.orderly]
    simpa using applied.all

/-- An applied literal has its complement in no clause. -/
theorem Applied.lacks (applied : Applied engine) (sound : engine.Sound)
    (onTrail : literal ∈ engine.trail.literals.toList) {handle : Handle} {clause : Clause}
    (live : engine.arena.live? handle = some clause) : literal.complement ∉ clause.literals := by
  intro inside
  have atRoot : literal ∈ engine.trail.facts := by rwa [applied.settled.orderly]
  exact applied.unmentioned atRoot ⟨clause.literals, Arena.contents_of_live live,
    literal.complement, inside, Literal.var_complement (sound.wellFormed.known literal atRoot).1⟩

omit [Realm] in
/-- There is nothing to apply. -/
theorem Applied.propagateUnits_looks (applied : Applied engine) :
    Engine.propagateUnits.Looks engine fun _ => True := by
  have none : engine.trail.literals[engine.applied]? = none :=
    Array.getElem?_eq_none applied.all
  unfold Engine.propagateUnits
  refine Run.Ends.step rfl ?_
  unfold Engine.applyUnits
  refine Run.Ends.step rfl ?_
  dsimp only
  rw [none]
  exact .pure ⟨rfl, trivial⟩

/-- Bringing the root up to date does nothing but move the head of the trail. -/
theorem settleRoot_ends (sound : engine.Sound) (applied : Applied engine) :
    settleRoot.Ends engine (fun _ after => ∃ head,
      after = { engine with trail := { engine.trail with head := head } }) fun _ _ => False := by
  unfold settleRoot
  refine applied.propagateUnits_looks.bind fun _ _ => .step rfl ?_
  have propagated : (Engine.onTrail Trail.propagateAtRoot).Ends engine (fun _ after => ∃ head,
      after = { engine with trail := { engine.trail with head := head } }) fun _ _ => False := by
    refine .within (Engine.onTrail_apply _ _) ?_
    unfold Trail.propagateAtRoot Trail.propagate
    refine .bind (.step rfl (Trail.propagateLoop_of_lacks _ engine.trail.head
      fun literal atRoot handle clause live => applied.lacks sound atRoot live)) ?_
    rintro _ _ ⟨rfl, head, rfl⟩
    exact .pure ⟨head, rfl⟩
  refine propagated.bind ?_
  rintro _ _ ⟨head, rfl⟩
  refine .step rfl ?_
  have nothing : (engine.trail.literals.toList.drop engine.trail.literals.size).isEmpty = true := by
    simp
  dsimp only
  rw [if_pos nothing]
  exact .pure ⟨head, rfl⟩

/-! ## A probe -/

/-- The trail after a literal was assumed. -/
structure Opens (engine : Engine) (literal : Literal) (trail : Trail) : Prop where
  derives : Trail.Derives engine.picture literal trail trail
  flags : engine.trail.SameFlags trail
  appended : trail.literals.toList = engine.trail.literals.toList ++ [literal]
  levels : trail.levels = #[engine.trail.literals.toList.length]

/-- A level is opened over the root. -/
theorem opens_openLevel (sound : engine.Sound) (orderly : engine.trail.Orderly)
    (isOpen : engine.trail.literalValue? literal = some none) {head : Nat}
    (opened : Trail.openLevel { engine.trail with head := head } literal = some trail) :
    Opens engine literal trail := by
  let leveled : Trail := { engine.trail with
    head := head, levels := engine.trail.levels.push engine.trail.literals.size }
  have agrees : leveled.Agrees := sound.trail.agrees
  have leveledOrderly : leveled.Orderly := orderly
  obtain ⟨_, literals, levels, _⟩ := Trail.push_eq_some opened
  have flags := Trail.sameFlags_push opened
  have list : trail.literals.toList = engine.trail.literals.toList ++ [literal] := by
    rw [literals, Array.toList_push]
  refine ⟨⟨agrees.push opened, leveledOrderly.push isOpen opened, .refl _, rfl, ⟨[], by simp⟩, ?_⟩,
    ⟨flags.size, flags.flags, flags.eliminated, flags.substituted⟩, list, ?_⟩
  · rw [list]
    refine List.forall_mem_append.2 ⟨fun root onTrail => ?_, ?_⟩
    · rw [← orderly] at onTrail
      refine .unit (Picture.mem_formula_of_root onTrail) List.mem_cons_self ?_
      exact fun other single different => absurd (List.mem_singleton.1 single) different
    · intro assumed single
      exact .assumption (List.mem_singleton.1 single)
  · rw [levels, sound.trail.atRoot]
    rfl

/-- What a literal implies. -/
structure Implied (picture : Picture) (literal implied : Literal) : Prop where
  present : picture.Present implied.var
  different : implied.var ≠ literal.var
  follows : Propagates picture.formula {literal} implied

/-- What a literal implies it implies in a larger formula. -/
theorem Implied.mono {before after : Picture} (isImplied : Implied before literal implied)
    (larger : before.formula ⊆ after.formula)
    (present : ∀ name, before.Present name → after.Present name) : Implied after literal implied :=
  ⟨present _ isImplied.present, isImplied.different,
    isImplied.follows.mono larger Set.Subset.rfl⟩

/-- Closing the level of a probe brings the engine back. -/
theorem closed_ends {new : List Literal} (sound : engine.Sound) (orderly : engine.trail.Orderly)
    (agrees : trail.Agrees) (trailOrderly : trail.Orderly) (flags : engine.trail.SameFlags trail)
    (levels : trail.levels = #[engine.trail.literals.toList.length])
    (appended : trail.literals.toList = engine.trail.literals.toList ++ new) :
    Engine.cancelToRoot.Ends { engine with trail := trail } (fun _ after =>
      engine.Leads .propagation after ∧ after.picture = engine.picture ∧
        after.trail.literals = engine.trail.literals ∧
        ∃ closed, after = { engine with trail := closed }) failed := by
  refine Engine.updateTrail_ends fun closed cancelled => ?_
  obtain ⟨closedAgrees, closedOrderly, literals, closedLevels⟩ :=
    Trail.cancelUntil_of_appended agrees trailOrderly levels appended cancelled
  have allFlags : engine.trail.SameFlags closed :=
    flags.trans (Trail.sameFlags_cancelUntil cancelled)
  have sameLiterals : closed.literals = engine.trail.literals := Array.toList_inj.1 literals
  have facts : closed.facts = engine.trail.facts := by rw [closedOrderly, orderly, sameLiterals]
  refine ⟨.of_sameTrail sound allFlags sameLiterals ?_ closedAgrees facts, ?_, sameLiterals,
    closed, rfl⟩
  · rw [closedLevels, sound.trail.atRoot]
  · change Engine.picture { engine with trail := closed } = engine.picture
    unfold Engine.picture Engine.numVars
    rw [allFlags.numVars, allFlags.frozen, allFlags.removed, facts]

/-- If nothing new is assigned, all is applied still. -/
theorem Applied.of_leads (applied : Applied engine) {scope : Scope}
    (leads : engine.Leads scope after) (literals : after.trail.literals = engine.trail.literals)
    (same : after.applied = engine.applied) : Applied after := by
  refine ⟨?_, leads.settled applied.settled⟩
  rw [literals, same]
  exact applied.all

/-- A level is opened with an open literal. -/
theorem openLevel_ends (sound : engine.Sound) (orderly : engine.trail.Orderly)
    (isOpen : engine.trail.literalValue? literal = some none) {head : Nat} :
    (Engine.updateTrail fun trail => trail.openLevel literal).Ends
      { engine with trail := { engine.trail with head := head } }
      (fun _ after => ∃ trail, after = { engine with trail := trail } ∧ Opens engine literal trail)
      failed :=
  Engine.updateTrail_ends fun trail opened =>
    ⟨trail, rfl, opens_openLevel sound orderly isOpen opened⟩

/-- A probe finds what follows, or a conflict. -/
theorem propagate_ends {start : Trail} (sound : engine.Sound) (opens : Opens engine literal start) :
    (Engine.onTrail Trail.propagate).Ends { engine with trail := start } (fun conflict after =>
      ∃ trail, after = { engine with trail := trail } ∧
        Trail.Derives engine.picture literal start trail ∧
        (conflict.isSome = true → Conflicts engine.picture.formula {literal})) failed := by
  refine .within (Engine.onTrail_apply _ _) ?_
  refine (Trail.propagate_ends sound.wellFormed (fun _ _ live => Arena.contents_of_live live)
    opens.derives).imp ?_ fun _ _ no => no.elim
  rintro conflict trail ⟨derives, isConflict⟩
  exact ⟨trail, rfl, derives, isConflict⟩

/-- What is on the trail after the assumed literal is implied by it. -/
theorem implied_of_derives {start trail : Trail} (opens : Opens engine literal start)
    (derives : Trail.Derives engine.picture literal start trail) :
    ∀ other ∈ trail.literals.toList.drop (engine.trail.literals.size + 1),
      Implied engine.picture literal other := by
  intro other member
  obtain ⟨new, appended, present⟩ := derives.appended
  rw [opens.appended] at appended
  have inNew : other ∈ new := by
    rwa [appended, List.drop_left' (by simp)] at member
  have onTrail : other ∈ trail.literals.toList := List.mem_of_mem_drop member
  refine ⟨present other inNew, fun same => ?_, derives.known other onTrail⟩
  have distinct := derives.orderly.nodup
  rw [appended, List.map_append, List.nodup_append] at distinct
  exact distinct.2.2 literal.var (by simp) other.var (List.mem_map_of_mem inNew) same.symm

omit [Realm] in
/-- A literal that leads to a conflict is refuted. -/
theorem rup_of_conflict {picture : Picture} (positive : 0 < literal.var)
    (conflict : Conflicts picture.formula {literal}) : Rup picture.formula [literal.complement] := by
  refine Conflicts.mono conflict Set.Subset.rfl ?_
  rintro other rfl
  exact ⟨other.complement, List.mem_singleton_self _, (Literal.complement_complement positive).symm⟩

/-- After the root was applied again everything is applied. -/
theorem works_propagateUnits (settled : engine.Settled) :
    Works .propagation Engine.propagateUnits engine fun _ after => Applied after :=
  Engine.works_propagateUnits.leads.imp fun _ _ ⟨leads, all⟩ => ⟨all, leads.settled settled⟩

/-- The complement of a failed literal becomes a root literal. -/
theorem works_refute (applied : Applied state.2) (present : state.2.picture.Present literal.var)
    (conflict : Conflicts state.2.picture.formula {literal}) :
    Works .propagation (do
      Engine.count fun tally => { tally with failedLiterals := tally.failedLiterals + 1 }
      Engine.assignUnit literal.complement
      Engine.propagateUnits
      return none : Work Unit (Option (List Literal))) state
      fun result after => Applied after.2 ∧ result = none := by
  refine .bind (Works.lift (Engine.works_count _)) ?_
  rintro _ ⟨tool, _⟩ counted ⟨_, rfl⟩
  refine .bind (Works.lift (Engine.works_assignUnit ?_ (rup_of_conflict present.1 conflict)))
    fun _ assigned leads _ => ?_
  · rw [Literal.var_complement present.1]
    exact present
  have settled : assigned.2.Settled := leads.settled (counted.settled applied.settled)
  exact .bind (Works.lift (works_propagateUnits settled)) fun _ after _ ⟨_, all⟩ => .pure ⟨all, rfl⟩

/-- How a probe found the engine again when its level was closed. -/
structure Probed (engine : Engine) (literal : Literal) (conflict : Option Handle)
    (implied : List Literal) (closed : Engine) : Prop where
  leads : engine.Leads .propagation closed
  picture : closed.picture = engine.picture
  literals : closed.trail.literals = engine.trail.literals
  restored : ∃ trail, closed = { engine with trail := trail }
  failed : conflict.isSome = true → Conflicts engine.picture.formula {literal}
  implied : ∀ other ∈ implied, Implied engine.picture literal other

theorem Probed.applied {conflict : Option Handle} {implied : List Literal}
    (probed : Probed engine literal conflict implied after) (applied : Applied engine) :
    Applied after := by
  refine applied.of_leads probed.leads probed.literals ?_
  obtain ⟨trail, rfl⟩ := probed.restored
  rfl

/-- A probe ends as what is concluded from it does. -/
theorem probe_ends (sound : state.2.Sound) (applied : Applied state.2)
    (present : state.2.picture.Present literal.var)
    (isOpen : ∀ other ∈ state.2.trail.facts, other.var ≠ literal.var)
    {done : Option (List Literal) → Tool Unit × Engine → Prop}
    {failed : Error → Tool Unit × Engine → Prop}
    (concluded : ∀ conflict implied tool closed, Probed state.2 literal conflict implied closed →
      (if conflict.isSome then do
          Engine.count fun tally => { tally with failedLiterals := tally.failedLiterals + 1 }
          Engine.assignUnit literal.complement
          Engine.propagateUnits
          return none
        else return some implied : Work Unit (Option (List Literal))).Ends (tool, closed)
        done failed) : (probe literal).Ends state done failed := by
  have unassigned := sound.trail.agrees.literalValue?_of_open present.1
    (Engine.present_of_lookup present).2.1 isOpen
  unfold probe
  refine .bind (Run.Ends.lift ((settleRoot_ends sound applied).imp (fun _ _ settled => settled)
    fun _ _ no => no.elim)) ?_
  rintro _ ⟨tool, _⟩ ⟨_, head, rfl⟩
  refine .step rfl ?_
  refine .bind (Run.Ends.lift (openLevel_ends sound applied.settled.orderly unassigned)) ?_
  rintro _ ⟨tool, _⟩ ⟨_, start, rfl, opens⟩
  refine .bind (Run.Ends.lift (propagate_ends sound opens)) ?_
  rintro conflict ⟨tool, _⟩ ⟨_, trail, rfl, derives, isConflict⟩
  have implied := implied_of_derives opens derives
  obtain ⟨new, appended, _⟩ := derives.appended
  rw [opens.appended, List.append_assoc] at appended
  refine .step rfl (.step rfl ?_)
  refine .bind (Run.Ends.lift (closed_ends sound applied.settled.orderly derives.agrees
    derives.orderly (opens.flags.trans derives.flags) (derives.levels.trans opens.levels)
    appended)) ?_
  rintro _ ⟨closedTool, closed⟩ ⟨_, leads, picture, literals, restored⟩
  exact concluded _ _ _ _ ⟨leads, picture, literals, restored, isConflict, implied⟩

/-- A probe finds out what a literal implies, or makes its complement a root literal. -/
theorem works_probe (applied : Applied state.2) (present : state.2.picture.Present literal.var)
    (isOpen : ∀ other ∈ state.2.trail.facts, other.var ≠ literal.var) :
    Works .propagation (probe literal) state fun result after => Applied after.2 ∧
      ∀ implied, result = some implied → after.2.picture = state.2.picture ∧
        ∀ other ∈ implied, Implied state.2.picture literal other := by
  intro (sound : state.2.Sound)
  refine probe_ends sound applied present isOpen fun conflict implied tool closed probed => ?_
  split
  next failedLiteral =>
    have refute : Works .propagation _ (tool, closed) _ :=
      works_refute (probed.applied applied) (probed.picture ▸ present)
        (probed.picture ▸ probed.failed failedLiteral)
    refine (refute.imp fun result after ⟨all, isNone⟩ => ?_).resume sound probed.leads
    exact ⟨all, fun _ impossible => nomatch isNone.symm.trans impossible⟩
  next =>
    refine .pure ⟨probed.leads, probed.applied applied, fun answer same => ⟨probed.picture, ?_⟩⟩
    rw [← Option.some.inj same]
    exact probed.implied

/-! ## Literals that both literals of a variable imply -/

/-- A literal that a literal implies is a clause with its complement. -/
theorem rup_of_implied {picture : Picture} (positive : 0 < literal.var)
    (isImplied : Implied picture literal implied) :
    Rup picture.formula [literal.complement, implied] := by
  have negated : negations [literal.complement, implied] = {literal, implied.complement} := by
    ext other
    simp only [negations, List.mem_cons, List.not_mem_nil, or_false, exists_eq_or_imp,
      exists_eq_left, Set.mem_ofPred_eq, Set.mem_insert_iff, Set.mem_singleton_iff,
      Literal.complement_complement positive]
  unfold Rup
  rw [negated]
  refine Propagates.conflicts (isImplied.follows.mono Set.Subset.rfl (by simp)) ?_
    (.assumption (by simp))
  rintro (same | same)
  · exact isImplied.different (congrArg Literal.var same)
  · exact Literal.complement_ne isImplied.present.1 (Set.mem_singleton_iff.1 same).symm

omit [Realm] in
/-- A literal follows from the two clauses that say both literals of a variable
imply it. -/
theorem rup_of_both {clauses : Set (List Literal)} :
    Rup (clauses ∪ {literals | literals ∈ [[literal.complement, implied], [literal, implied]]})
      [implied] := by
  have first : [literal.complement, implied] ∈
      clauses ∪ {literals | literals ∈ [[literal.complement, implied], [literal, implied]]} := by
    simp
  have second : [literal, implied] ∈
      clauses ∪ {literals | literals ∈ [[literal.complement, implied], [literal, implied]]} := by
    simp
  have negated : implied.complement ∈ negations [implied] := mem_negations (by simp)
  refine ⟨_, second, List.forall_mem_cons.2 ⟨?_, by simpa using .assumption negated⟩⟩
  refine .unit first List.mem_cons_self fun other member different => ?_
  rcases List.mem_cons.1 member with same | last
  · exact absurd same different
  · rw [List.mem_singleton.1 last]
    exact .assumption negated

/-- A root literal more does not change what a literal implies. -/
theorem Implied.of_pushed {implied unit : Literal}
    (isImplied : Implied engine.picture literal implied)
    (unassigned : engine.trail.literalValue? unit = some none)
    (pushed : engine.trail.push unit 0 = some trail) (arena : after.arena = engine.arena)
    (same : after.trail = trail) : Implied after.picture literal implied := by
  have flags : engine.trail.SameFlags after.trail := same ▸ Trail.sameFlags_push pushed
  refine isImplied.mono ?_ fun name present => ?_
  · rintro clause (inside | ⟨root, atRoot, rfl⟩)
    · left
      change clause ∈ after.arena.contents
      rw [arena]
      exact inside
    · refine .inr ⟨root, ?_, rfl⟩
      change root ∈ after.trail.facts
      rw [same, Trail.facts_push unassigned pushed]
      exact List.mem_append_left _ atRoot
  · exact Engine.present_of_sameFlags flags present

/-- Literals that both literals of a variable imply become root literals. -/
theorem works_assignNecessary {literals : List Literal} (positive : 0 < literal.var)
    (fromBoth : ∀ implied ∈ literals, Implied engine.picture literal implied ∧
      Implied engine.picture literal.complement implied) :
    Works .propagation (assignNecessary literal literals) engine fun _ _ => True := by
  induction literals generalizing engine with
  | nil => exact .pure trivial
  | cons implied rest ih =>
    obtain ⟨⟨fromPositive, fromNegative⟩, fromBothRest⟩ := List.forall_mem_cons.1 fromBoth
    refine .of_sound fun (sound : engine.Sound) => ?_
    unfold assignNecessary
    refine .look .read fun value known => ?_
    split
    next isNone =>
      have unassigned : engine.trail.literalValue? implied = some none := by
        rw [known, Option.isNone_iff_eq_none.1 isNone]
      have present := fromPositive.present
      have sameVar := Literal.var_complement positive
      have helped : ∀ literals ∈ [[literal.complement, implied], [literal, implied]],
          OverVars literals ∧ Rup engine.picture.formula literals := by
        have first := rup_of_implied positive fromPositive
        have second := rup_of_implied (sameVar.symm ▸ positive) fromNegative
        rw [Literal.complement_complement positive] at second
        simp only [List.mem_cons, List.not_mem_nil, or_false, forall_eq_or_imp, forall_eq, OverVars]
        exact ⟨⟨⟨sameVar.symm ▸ positive, present.1⟩, first⟩, ⟨positive, present.1⟩, second⟩
      let helping : Engine := { engine with
        proof := (engine.proof.map fun steps : Array ProofStep =>
          steps.push (.added [literal.complement, implied])).map fun steps : Array ProofStep =>
            steps.push (.added [literal, implied]) }
      intro _
      by_cases removed : engine.trail.Removed implied.var
      · -- The helpers stay in the proof if the literal is refused.
        have lenient := present.2.2.1.resolve_left fun kept => kept removed
        have refused : Engine.assignUnit implied helping = .failed _ helping :=
          Engine.assignUnit_of_removed unassigned removed
        refine .step rfl (.step rfl (.of_failed (Run.bind_of_failed refused) ?_))
        refine ⟨⟨sound.toInStep.of_same rfl rfl rfl rfl, fun _ => .of_subset (.refl _) rfl subset_rfl
          fun _ => id, id, id, id, rfl, rfl, rfl⟩, ⟨engine.picture.log, .refl⟩,
          .inr ⟨lenient, _, rfl⟩⟩
      have assigned : (Engine.assignUnit implied).Ends helping _ _ :=
        Engine.assignUnit_of_open sound.trail unassigned removed
      refine .step rfl (.step rfl (.bind (assigned.imp (fun _ _ pushed => pushed)
        fun _ _ no => no.elim) ?_))
      rintro _ _ ⟨trail, tally, changes, pushed, rfl⟩
      refine .step rfl (.step rfl (.step rfl ?_))
      refine Works.resume (ih fun other inRest => ?_) sound
        (.of_assigned sound present unassigned _ helped rup_of_both pushed ?_ rfl rfl rfl rfl rfl rfl
          rfl)
      · obtain ⟨first, second⟩ := fromBothRest other inRest
        exact ⟨first.of_pushed unassigned pushed rfl rfl, second.of_pushed unassigned pushed rfl rfl⟩
      · simp [Engine.picture, helping, Function.comp_def]
    next => exact ih fromBothRest

/-- The two literals of a variable of the formula. -/
theorem vars_of_present {name : Nat} (sound : engine.Sound)
    (present : engine.picture.Present name) :
    (Literal.ofVar name true).var = name ∧ (Literal.ofVar name true).complement.var = name := by
  have inside := Trail.lt_of_le_numVars sound.trail.nonempty present.2.1
  have sameVar : (Literal.ofVar name true).var = name :=
    Literal.var_ofVar present.1 (sound.trail.small_of_lt inside)
  refine ⟨sameVar, ?_⟩
  rw [Literal.var_complement (by rw [sameVar]; exact present.1), sameVar]

/-- Probing both literals of a variable works. -/
theorem works_probeVar {name : Nat} (applied : Applied state.2)
    (present : state.2.picture.Present name)
    (isOpen : ∀ other ∈ state.2.trail.facts, other.var ≠ name) :
    Works .propagation (probeVar name) state fun _ after => Applied after.2 := by
  refine .of_sound fun (sound : state.2.Sound) => ?_
  obtain ⟨sameVar, complementVar⟩ := vars_of_present sound present
  have positive : 0 < (Literal.ofVar name true).var := by
    rw [sameVar]
    exact present.1
  unfold probeVar
  refine .bind (works_probe applied (by rwa [sameVar]) (by rwa [sameVar])) ?_
  rintro (_ | fromPositive) middle _ ⟨appliedMiddle, impliedFirst⟩
  · exact .pure appliedMiddle
  obtain ⟨pictureMiddle, impliesPositive⟩ := impliedFirst fromPositive rfl
  have root : middle.2.trail.facts = state.2.trail.facts :=
    congrArg Picture.root pictureMiddle
  refine .bind (works_probe appliedMiddle (by rwa [pictureMiddle, complementVar])
    (by rwa [root, complementVar])) ?_
  rintro (_ | fromNegative) last _ ⟨appliedLast, impliedSecond⟩
  · exact .pure appliedLast
  obtain ⟨pictureLast, impliesNegative⟩ := impliedSecond fromNegative rfl
  refine .bind (Works.lift (works_assignNecessary positive fun implied member => ?_))
    fun _ assigned leadsAssigned _ => ?_
  · obtain ⟨inNegative, inPositive⟩ := List.mem_filter.1 member
    rw [pictureLast, pictureMiddle]
    exact ⟨impliesPositive implied (by simpa using inPositive),
      pictureMiddle ▸ impliesNegative implied inNegative⟩
  · exact (Works.lift (works_propagateUnits (leadsAssigned.settled appliedLast.settled))).imp
      fun _ _ ⟨_, all⟩ => all

/-! ## All probes -/

omit [Realm] in
/-- The variables to be probed occur in binary clauses. -/
theorem edge_of_classify? {graph : Implications} {names roots others : List Nat}
    (classified : classify? graph names = some (roots, others)) {name : Nat}
    (member : name ∈ roots ∨ name ∈ others) :
    name ∈ names ∧ ∃ target, graph.Edge (Literal.ofVar name true) target ∨
      graph.Edge (Literal.ofVar name true).complement target := by
  induction names generalizing roots others with
  | nil =>
    obtain ⟨rfl, rfl⟩ : roots = [] ∧ others = [] := by
      simpa [classify?, eq_comm] using classified
    simp at member
  | cons first rest ih =>
    unfold classify? at classified
    obtain ⟨forward, foundForward, classified⟩ := Option.bind_eq_some_iff.1 classified
    obtain ⟨backward, foundBackward, classified⟩ := Option.bind_eq_some_iff.1 classified
    obtain ⟨⟨rootsRest, othersRest⟩, classifiedRest, classified⟩ :=
      Option.bind_eq_some_iff.1 classified
    have later : (name ∈ rootsRest ∨ name ∈ othersRest) → _ := fun inRest =>
      (ih classifiedRest inRest).imp_left (List.mem_cons_of_mem first)
    have edges : ¬ (forward.isEmpty && backward.isEmpty) = true → ∃ target,
        graph.Edge (Literal.ofVar first true) target ∨
          graph.Edge (Literal.ofVar first true).complement target := by
      intro notIsolated
      rw [Bool.and_eq_true, not_and_or] at notIsolated
      rcases notIsolated with some | some
      · obtain ⟨target, rest, same⟩ := List.exists_cons_of_ne_nil
          (fun none => some (by simpa using none) : forward.toList ≠ [])
        exact ⟨target, .inl (Implications.edge_iff_successors.2
          ⟨forward, foundForward, by rw [same]; exact List.mem_cons_self⟩)⟩
      · obtain ⟨target, rest, same⟩ := List.exists_cons_of_ne_nil
          (fun none => some (by simpa using none) : backward.toList ≠ [])
        exact ⟨target, .inr (Implications.edge_iff_successors.2
          ⟨backward, foundBackward, by rw [same]; exact List.mem_cons_self⟩)⟩
    dsimp only at classified
    split at classified
    next =>
      obtain ⟨rfl, rfl⟩ : rootsRest = roots ∧ othersRest = others := by simpa using classified
      exact later member
    next notIsolated =>
      obtain ⟨isRoot, _, classified⟩ := Option.bind_eq_some_iff.1 classified
      obtain ⟨isOtherRoot, _, classified⟩ := Option.bind_eq_some_iff.1 classified
      have cases : name = first ∨ name ∈ rootsRest ∨ name ∈ othersRest := by
        have result := Option.some.inj classified
        split at result
        · obtain ⟨rfl, rfl⟩ := Prod.mk.inj result
          simpa [or_assoc] using member
        · obtain ⟨rfl, rfl⟩ := Prod.mk.inj result
          simpa [or_left_comm] using member
      rcases cases with rfl | inRest
      · exact ⟨List.mem_cons_self, edges notIsolated⟩
      · exact later inRest

/-- The variables to be probed belong to the formula. -/
theorem present_of_order? {graph : Implications} {names : List Nat} (sound : engine.Sound)
    (reflects : graph.Reflects engine.picture)
    (ordered : order? graph engine.numVars = some names) :
    ∀ name ∈ names, engine.picture.Present name := by
  intro name member
  obtain ⟨⟨roots, others⟩, classified, rfl⟩ := Option.map_eq_some_iff.1 ordered
  obtain ⟨inRange, target, edge⟩ := edge_of_classify? classified (List.mem_append.1 member)
  obtain ⟨positive, bound⟩ := List.mem_range'_1.1 inRange
  have inside : name < engine.trail.vars.size := by
    unfold Engine.numVars Trail.numVars at bound
    omega
  have sameVar : (Literal.ofVar name true).var = name :=
    Literal.var_ofVar positive (sound.trail.small_of_lt inside)
  rcases edge with forward | backward
  · have present := (reflects.edge forward).left
    rwa [sameVar] at present
  · have present := (reflects.edge backward).left
    rwa [Literal.var_complement (by rw [sameVar]; exact positive), sameVar] at present

/-- Probing the variables of a list works. -/
theorem works_probeAll {names : List Nat} (applied : Applied state.2)
    (present : ∀ name ∈ names, state.2.picture.Present name) :
    Works .propagation (probeAll names) state fun _ after => Applied after.2 := by
  induction names generalizing state with
  | nil => exact .pure applied
  | cons name rest ih =>
    refine .of_sound fun (sound : state.2.Sound) => ?_
    obtain ⟨presentName, presentRest⟩ := List.forall_mem_cons.1 present
    unfold probeAll
    refine .bind Work.works_spend ?_
    rintro goOn ⟨tool, _⟩ _ ⟨rfl, _⟩
    split
    next =>
      refine .look .read fun value known => ?_
      split
      next isNone =>
        have isOpen := Trail.open_of_value?
          (known.trans (congrArg some (Option.isNone_iff_eq_none.1 isNone)))
        refine .bind (works_probeVar applied presentName isOpen) fun _ probed leads all => ?_
        exact ih all fun other inRest =>
          Steps.present leads.steps (by decide) (presentRest other inRest)
      next => exact ih applied presentRest
    next => exact .pure applied

/-- Probing is propagation, provided that applied root literals are out of the clauses.
It leaves no root literal to apply. -/
theorem works_run (settled : state.2.Settled) :
    Works .propagation run state fun _ after => Applied after.2 := by
  refine .of_sound fun (sound : state.2.Sound) => ?_
  unfold run
  refine .step (Work.cancelToRoot_of_sound sound) rfl ?_
  refine .bind (Works.lift (works_propagateUnits settled)) fun _ propagated _ ⟨_, applied⟩ => ?_
  refine .bind (Works.lift Engine.works_implications) ?_
  rintro graph ⟨tool, known⟩ _ ⟨_, same, reflects, _⟩
  refine .look Engine.looks_look.lift ?_
  rintro _ rfl
  refine .look .access fun names ordered => ?_
  refine .of_sound fun (soundKnown : known.Sound) => ?_
  refine works_probeAll ?_ (present_of_order? soundKnown reflects ordered)
  dsimp only at same
  rw [same]
  exact ⟨applied.all, ⟨applied.settled.orderly, applied.settled.settles⟩⟩

/-- Closing the levels after a run changes nothing. -/
theorem works_runAndClose (settled : state.2.Settled) :
    Works .propagation (do
      let result ← run.attempt
      Engine.cancelToRoot
      match result with
      | .ok () => pure ()
      | .error cause => Run.fail cause) state fun _ after => Applied after.2 := by
  intro (sound : state.2.Sound)
  let ended (result : Except Error Unit) (last : Tool Unit × Engine) : Prop :=
    match result with
    | .ok () => state.2.Leads .propagation last.2 ∧ Applied last.2
    | .error cause => state.2.Fails .propagation last.2 cause
  have attempted : ∀ failed, run.attempt.Ends state ended failed := fun failed =>
    .attempt ((works_run settled sound).imp (fun _ _ held => held) fun _ _ fails => fails)
  refine .bind (attempted _) ?_
  rintro (cause | _) last held
  · have fails : state.2.Fails .propagation last.2 cause := held
    exact .step (Work.cancelToRoot_of_sound (fails.sound sound)) (.fail fails)
  · have leads : state.2.Leads .propagation last.2 := held.1
    exact .step (Work.cancelToRoot_of_sound (leads.sound sound)) (.pure held)

/-- A run of probing comes to a conclusion. -/
theorem process_ends (sound : state.2.Sound) (settled : state.2.Settled) :
    process.Ends state (fun status after => state.2.Concludes .propagation status after.2)
      fun _ _ => False :=
  Work.process_ends sound fun tool =>
    have works : Works .propagation _ (tool, state.2) _ := works_runAndClose settled
    works.imp fun _ _ _ => trivial

end CnfSimplifier.Probing
