import CnfSimplifier.Blocked
import CnfSimplifier.Proofs.Resolution

/-!
# Removing blocked clauses

A clause that is blocked on a literal goes with a record that chooses the literal.
If a model of the others does not satisfy it, making the literal true repairs it,
and no other clause suffers: a clause with the complement holds apart from the
variable, since its resolvent with the blocked clause is a tautology.

The partners are listed before the clauses are tried. No clause comes while they
are tried, so the list stays complete.
-/
namespace CnfSimplifier

/-! ## One blocked clause -/

/-- The record of a blocked clause repairs it, and no clause suffers with which it has
a tautology for a resolvent. -/
theorem clauseHolds_repair_of_blocked {literal : Literal} {literals : List Literal}
    {others : Set (List Literal)} {values : Assignment} (present : OverVars literals)
    (member : literal ∈ literals)
    (blocked : ∀ partner ∈ others, literal.complement ∈ partner →
      Resolution.resolvent? literal.var literals partner = none)
    (holds : ∀ partner ∈ others, ClauseHolds values partner) :
    ClauseHolds ((Record.ofClause literal literals).repair values) literals ∧
      ∀ partner ∈ others,
        ClauseHolds ((Record.ofClause literal literals).repair values) partner := by
  have positive := present literal member
  unfold Record.repair
  by_cases satisfied : ClauseHolds values literals
  · rw [if_pos ((Record.clauseHolds_ofClause member).2 satisfied)]
    exact ⟨satisfied, holds⟩
  rw [if_neg fun repaired => satisfied ((Record.clauseHolds_ofClause member).1 repaired)]
  change ClauseHolds (Function.update values literal.var literal.isPositive) literals ∧
    ∀ partner ∈ others,
      ClauseHolds (Function.update values literal.var literal.isPositive) partner
  have isTrue : literal.Holds (Function.update values literal.var literal.isPositive) := by
    simp [Literal.Holds]
  refine ⟨⟨literal, member, isTrue⟩, fun partner inside => ?_⟩
  by_cases has : literal ∈ partner
  · exact ⟨literal, has, isTrue⟩
  suffices apart : HoldsApart literal.var values partner from
    (apart.of_agree fun name different => Function.update_of_ne different _ _).clauseHolds
  by_cases clash : literal.complement ∈ partner
  · -- The resolvent is a tautology, and the blocked clause does not hold at all.
    exact (Resolution.holdsApart_of_none present (blocked partner inside clash)).resolve_left
      fun apart => satisfied apart.clauseHolds
  · refine .of_unmentioned (holds partner inside) fun other isOther same => ?_
    rcases Literal.eq_or_eq_complement positive same with rfl | rfl
    · exact has isOther
    · exact clash isOther

/-- A blocked clause may go from a formula. -/
theorem Picture.holds_repair_of_blocked {picture : Picture} {literal : Literal}
    {literals : List Literal} {rest : Multiset (List Literal)} {values : Assignment}
    (split : picture.clauses = literals ::ₘ rest) (present : OverVars literals)
    (member : literal ∈ literals) (isOpen : ∀ other ∈ picture.root, other.var ≠ literal.var)
    (blocked : ∀ partner ∈ rest, literal.complement ∈ partner →
      Resolution.resolvent? literal.var literals partner = none)
    (holds : Holds { picture with clauses := rest } values) :
    picture.Holds ((Record.ofClause literal literals).repair values) := by
  have clashes : ∀ partner ∈ formula { picture with clauses := rest },
      literal.complement ∈ partner →
        Resolution.resolvent? literal.var literals partner = none := by
    rintro partner (kept | ⟨unit, atRoot, rfl⟩) clash
    · exact blocked partner kept clash
    · refine absurd ?_ (isOpen unit atRoot)
      rw [← List.mem_singleton.1 clash, Literal.var_complement (present literal member)]
  obtain ⟨own, others⟩ := clauseHolds_repair_of_blocked present member clashes holds
  rintro other (inside | atRoot)
  · rcases Multiset.mem_cons.1 (split ▸ inside : other ∈ literals ::ₘ rest) with rfl | kept
    · exact own
    · exact others other (.inl kept)
  · exact others other (.inr atRoot)

namespace Engine

variable {engine after : Engine} {handle : Handle} {clause : Clause} {literal : Literal}
  {partners : List Handle}

/-- Every live clause with the complement of a literal is among the given ones. -/
def ListsPartners (engine : Engine) (literal : Literal) (partners : List Handle) : Prop :=
  ∀ handle clause, engine.arena.live? handle = some clause →
    literal.complement ∈ clause.literals → handle ∈ partners

theorem KeepsOthers.live?_eq {other : Handle} (others : engine.KeepsOthers handle after)
    (different : other ≠ handle) : after.arena.live? other = engine.arena.live? other := by
  unfold Arena.live?
  rw [others other different]

/-- The partners are still listed when a clause is gone. -/
theorem ListsPartners.of_removed (lists : engine.ListsPartners literal partners)
    (dead : after.arena.live? handle = none) (others : engine.KeepsOthers handle after) :
    after.ListsPartners literal partners := by
  intro other clause live member
  by_cases same : other = handle
  · rw [same, dead] at live
    cases live
  · rw [others.live?_eq same] at live
    exact lists other clause live member

/-- The live ones of the listed clauses are all there are. -/
theorem listsPartners_of_list (listed : Listed engine.index engine.arena) {handles : Array Handle}
    (found : engine.index.list? literal.complement = some handles) :
    engine.ListsPartners literal
      (handles.toList.filter fun handle => (engine.arena.live? handle).isSome) := by
  intro handle clause live member
  refine List.mem_filter.2 ⟨listed.mem_of_live live member found, ?_⟩
  rw [live]
  rfl

theorem Removable.of_trail {name : Nat} (removable : engine.Removable name)
    (same : after.trail = engine.trail) : after.Removable name :=
  ⟨same ▸ removable.value, same ▸ removable.unprotected, same ▸ removable.kept,
    same ▸ removable.inRange⟩

/-- The literals of a removable variable fit into words. -/
theorem Removable.small [Realm] {name : Nat} (removable : engine.Removable name)
    (sound : engine.Sound) : 2 * name + 1 < UInt32.size := by
  have inRange := removable.inRange
  have bound := sound.trail.small
  have size : UInt32.size = 4294967296 := rfl
  omega

/-- All resolvents of a blocked clause are tautologies. -/
theorem resolvent?_of_blocked [Realm] (sound : engine.Sound)
    (lists : engine.ListsPartners literal partners)
    (blocked : Resolution.isBlocked? engine.arena literal.var clause.literals partners = some true)
    {literals : List Literal} (inside : literals ∈ engine.arena.contents)
    (clash : literal.complement ∈ literals) :
    Resolution.resolvent? literal.var clause.literals literals = none := by
  obtain ⟨slot, partner, atSlot, alive, rfl⟩ := Arena.mem_contents.1 inside
  have livePartner := Arena.live?_handleAt sound.space.le atSlot alive
  obtain ⟨found, lookedUp, tautology⟩ := Resolution.resolvent?_of_isBlocked? blocked _
    (lists _ partner livePartner clash)
  rw [(Arena.live?_eq_some.1 livePartner).1, Option.some.injEq] at lookedUp
  rw [lookedUp]
  exact tautology

/-- A blocked clause may go. -/
theorem works_removeBlocked [Realm] (member : literal ∈ clause.literals)
    (removable : engine.Removable literal.var) (lists : engine.ListsPartners literal partners)
    (live : engine.arena.live? handle = some clause)
    (blocked : Resolution.isBlocked? engine.arena literal.var clause.literals partners =
      some true) :
    Works .removal (removeWithRecord handle literal) engine fun _ after =>
      after.trail = engine.trail ∧ after.arena.live? handle = none ∧
        engine.KeepsOthers handle after := by
  intro sound
  have admits := sound.wellFormed.admits _ (Arena.contents_of_live live)
  refine (removeWithRecord_ends sound.toInStep live).imp ?_ fun _ _ failed => failed
  rintro _ after ⟨takes, dead, others, trail⟩
  have split : engine.arena.contents = clause.literals ::ₘ after.arena.contents := by
    rw [← Multiset.singleton_add, ← Multiset.coe_singleton]
    exact takes.contents
  refine ⟨takes.leads ?_ ?_ ?_ List.nodup_nil (by simp) (by simp) (by simp), trail, dead, others⟩
  · intro record isRecord other inside
    split at isRecord
    next => cases isRecord
    next =>
      obtain rfl := List.mem_singleton.1 isRecord
      exact admits.present other ((Record.mem_ofClause member).1 inside)
  · intro record isRecord
    split at isRecord
    next => cases isRecord
    next =>
      obtain rfl := List.mem_singleton.1 isRecord
      exact removable.unprotected
  · intro pure values holds
    obtain ⟨found, alive⟩ := Arena.live?_eq_some.1 live
    rw [pure _ clause (Arena.get?_eq_some.1 found).2 alive, if_neg Bool.false_ne_true]
    refine Picture.holds_repair_of_blocked split (fun other inside => (admits.present other inside).1)
      member removable.isOpen ?_ holds
    intro partner kept clash
    have inside : partner ∈ engine.arena.contents := split ▸ Multiset.mem_cons_of_mem kept
    exact resolvent?_of_blocked sound lists blocked inside clash

end Engine

/-! ## The queue of literals -/

namespace BlockedQueue

variable [Realm] {state : Tool BlockedQueue × Engine} {literal : Literal} {partners : List Handle}

theorem works_enqueue {scope : Scope} : Works scope (enqueue literal) state fun _ after =>
    after.2 = state.2 :=
  .of_done rfl rfl rfl

/-- Putting literals back into the queue leaves the engine. -/
theorem works_requeue {scope : Scope} (literals : List Literal) :
    Works scope (requeue literals) state fun _ after => after.2 = state.2 := by
  induction literals generalizing state with
  | nil => exact .pure rfl
  | cons literal rest ih =>
    unfold requeue
    refine .look Run.Looks.read.lift fun removable _ => ?_
    split
    · refine .bind works_enqueue fun _ after _ same => ?_
      exact ih.imp fun _ _ again => again.trans same
    · exact .step rfl rfl ih

/-- Blocked clauses of a literal may go. -/
theorem works_removeBlocked (handles : List Handle) (removable : state.2.Removable literal.var)
    (lists : state.2.ListsPartners literal partners) :
    Works .removal (removeBlocked literal partners handles) state fun _ _ => True := by
  induction handles generalizing state with
  | nil => exact .pure trivial
  | cons handle rest ih =>
    unfold removeBlocked
    refine .step rfl rfl ?_
    split
    next => exact ih removable lists
    next clause live =>
    split
    next => exact ih removable lists
    next wanted =>
    rw [Bool.or_eq_true, not_or] at wanted
    have member : literal ∈ clause.literals := by simpa [Clause.contains] using wanted.2
    refine .bind Work.works_spend ?_
    rintro goOn spent _ ⟨same, _⟩
    rw [← same] at live removable lists
    split
    swap
    · exact .pure trivial
    refine .look Run.Looks.access fun isBlocked blocked => ?_
    split
    next yes =>
      rw [yes, ← same] at blocked
      refine .bind (Works.lift (Engine.works_removeBlocked member removable lists live blocked)) ?_
      rintro _ removed _ ⟨_, trail, dead, others⟩
      refine .bind (Works.lift (Engine.works_count _)) ?_
      rintro _ counted _ ⟨_, isCounted⟩
      refine .bind (works_requeue _) fun _ after _ unchanged => ?_
      have sameTrail : after.2.trail = spent.2.trail := by
        rw [unchanged, isCounted]
        exact trail
      refine ih (removable.of_trail sameTrail) ?_
      rw [unchanged, isCounted]
      exact lists.of_removed dead others
    next => exact .step rfl rfl (ih removable lists)

/-- A literal may be tried whatever the queue holds. -/
theorem works_tryLiteral : Works .removal (tryLiteral literal) state fun _ _ => True := by
  refine .of_sound fun (sound : state.2.Sound) => ?_
  unfold tryLiteral
  refine .look Run.Looks.read.lift fun removable found => ?_
  split
  · exact .pure trivial
  next isRemovable =>
  refine .look Run.Looks.read fun count _ => ?_
  split
  · exact .pure trivial
  refine .look Engine.looks_occurrences.lift ?_
  rintro _ ⟨handles, list, rfl⟩
  refine .step rfl rfl (.look Engine.looks_occurrences.lift fun others _ => ?_)
  refine works_removeBlocked others (Engine.removable_of_isRemovable? ?_)
    (Engine.listsPartners_of_list sound.listed list)
  rw [found]
  simpa using isRemovable

/-- Working off the queue works. -/
theorem works_loop (fuel : Nat) : Works .removal (loop fuel) state fun _ _ => True := by
  induction fuel generalizing state with
  | zero => exact .stop
  | succ fuel ih =>
    unfold loop
    refine .step rfl rfl ?_
    split
    · exact .pure trivial
    refine .step rfl rfl (.bind works_tryLiteral fun goOn _ _ _ => ?_)
    split
    · exact ih
    · exact .pure trivial

theorem works_run : Works .removal run state fun _ _ => True := by
  unfold run
  refine .bind (Works.lift Engine.works_propagateUnits) fun _ propagated _ _ => ?_
  refine .step rfl rfl (.look Run.Looks.access fun counted _ => ?_)
  exact .step rfl rfl (works_loop _)

/-- Forgetting the queue changes nothing of the formula. -/
theorem works_runAndForget : Works .removal (do
    let result ← run.attempt
    Work.modifyOwn fun _ => []
    match result with
    | .ok () => pure ()
    | .error cause => Run.fail cause) state fun _ _ => True := by
  intro sound
  refine .bind (Works.attempt sound works_run) fun result after attempted => ?_
  refine .step rfl ?_
  match result, attempted with
  | .ok (), leads => exact .pure ⟨leads, trivial⟩
  | .error cause, fails => exact .fail fails

/-- The removal of blocked clauses comes to a conclusion. -/
theorem process_ends (sound : state.2.Sound) :
    process.Ends state (fun status after => state.2.Concludes .removal status after.2)
      fun _ _ => False :=
  Work.process_ends sound fun _ => works_runAndForget

end BlockedQueue

end CnfSimplifier
