import Mathlib.Algebra.BigOperators.Group.Multiset.Basic
import Mathlib.Order.Bounds.Basic
import CnfSimplifier.Proofs.BlockedClauses
import CnfSimplifier.Proofs.Consistency
import CnfSimplifier.Proofs.Safety
import CnfSimplifier.Proofs.Wear

/-!
# The fixed point of the removal of blocked clauses

A clause that is blocked within a set of clauses is blocked within every subset. So
the sets without blocked irredundant clauses have a largest one, whatever the order in
which blocked clauses are removed. The removal stops at that set: a clause that is not
blocked on a literal has a partner to show for it, and when that partner is removed the
literal enters the queue again.
-/
namespace CnfSimplifier

/-! ## Sets of clauses -/

/-- A clause without its place and its other marks. -/
structure ClauseForm where
  literals : List Literal
  redundant : Bool

/-- The form of a clause. -/
def Clause.form (clause : Clause) : ClauseForm := ⟨clause.literals, clause.isRedundant⟩

namespace ClauseForm

/-- The resolvent of two clauses on a variable has a literal and its complement. -/
def Clashes (pivot : Nat) (first second : List Literal) : Prop :=
  ∃ literal ∈ first, literal.var ≠ pivot ∧ literal.complement ∈ second

/-- A clause is blocked on a literal within a set: every clause of the set with the
complement has a tautology for a resolvent with it. -/
def Blocked (forms : Set ClauseForm) (literals : List Literal) (literal : Literal) : Prop :=
  literal ∈ literals ∧ ∀ partner ∈ forms, literal.complement ∈ partner.literals →
    Clashes literal.var literals partner.literals

/-- A subset has all redundant clauses, and none of its irredundant clauses is blocked
on a literal of a removable variable. -/
structure Unblocked (removable : Nat → Prop) (all forms : Set ClauseForm) : Prop where
  redundant : ∀ form ∈ all, form.redundant = true → form ∈ forms
  subset : forms ⊆ all
  unblocked : ∀ form ∈ forms, form.redundant = false → ∀ literal, removable literal.var →
    ¬ Blocked forms form.literals literal

/-- What is left of a set of clauses when no clause that can be spared is kept: the union
of the subsets without blocked clauses. -/
def core (removable : Nat → Prop) (all : Set ClauseForm) : Set ClauseForm :=
  {form | ∃ forms, Unblocked removable all forms ∧ form ∈ forms}

/-- If there is a largest subset without blocked clauses, it is their union. -/
theorem eq_core_of_isGreatest {removable : Nat → Prop} {all forms : Set ClauseForm}
    (greatest : IsGreatest {forms | Unblocked removable all forms} forms) :
    forms = core removable all :=
  Set.Subset.antisymm (fun _ member => ⟨forms, greatest.1, member⟩)
    fun _ ⟨_, unblocked, member⟩ => greatest.2 unblocked member

/-- What is blocked within a set is blocked within its subsets. -/
theorem Blocked.mono {forms fewer : Set ClauseForm} {literals : List Literal} {literal : Literal}
    (blocked : Blocked forms literals literal) (subset : fewer ⊆ forms) :
    Blocked fewer literals literal :=
  ⟨blocked.1, fun partner member => blocked.2 partner (subset member)⟩

end ClauseForm

namespace Engine

variable {applied engine after : Engine} {handle : Handle} {clause : Clause} {literal : Literal}
  {pending further : Handle → Literal → Prop}

/-- The engine says of a removable variable that it is removable. -/
theorem Removable.isRemovable? {name : Nat} (removable : engine.Removable name) :
    engine.isRemovable? name = some true := by
  obtain ⟨value, unprotected, kept, inRange⟩ := removable
  obtain ⟨state, found, unassigned⟩ := Option.map_eq_some_iff.1 value
  have flags : engine.trail.flags? name = some state.flags := by rw [Trail.flags?, found]; rfl
  have free : state.flags.isRemovable = true := by
    have notFrozen : ¬ state.flags.frozen = true := fun frozen => unprotected ⟨_, flags, frozen⟩
    have notRemoved : ¬ state.flags.isRemoved = true := fun removed => kept ⟨_, flags, removed⟩
    simp only [VarFlags.isRemoved, VarFlags.isRemovable] at *
    simp_all
  simp [Engine.isRemovable?, found, unassigned, free]

/-- The forms of the live clauses. -/
def forms (engine : Engine) : Set ClauseForm :=
  {form | ∃ handle clause, engine.arena.live? handle = some clause ∧ clause.form = form}

theorem form_mem (live : engine.arena.live? handle = some clause) : clause.form ∈ engine.forms :=
  ⟨handle, clause, live, rfl⟩

/-! ## What removals keep -/

/-- Blocked clauses were removed. What cannot be blocked is there still, and a clause
that may be blocked on a literal is still to be tried on it. -/
structure Unblocks (applied : Engine) (pending : Handle → Literal → Prop) (engine : Engine) :
    Prop where
  trail : engine.trail = applied.trail
  fewer : ∀ handle clause, engine.arena.live? handle = some clause →
    applied.arena.live? handle = some clause
  redundant : ∀ handle clause, applied.arena.live? handle = some clause →
    clause.isRedundant = true → engine.arena.live? handle = some clause
  unblocked : ∀ forms, ClauseForm.Unblocked applied.Removable applied.forms forms →
    ∀ handle clause, applied.arena.live? handle = some clause → clause.form ∈ forms →
      engine.arena.live? handle = some clause
  tried : ∀ handle clause, engine.arena.live? handle = some clause →
    clause.isRedundant = false → ∀ literal, applied.Removable literal.var →
      ClauseForm.Blocked engine.forms clause.literals literal → pending handle literal

/-- At the start nothing was removed and everything is pending. -/
theorem Unblocks.start (all : ∀ handle clause literal, applied.arena.live? handle = some clause →
    literal ∈ clause.literals → applied.Removable literal.var → pending handle literal) :
    Unblocks applied pending applied where
  trail := rfl
  fewer _ _ := id
  redundant _ _ live _ := live
  unblocked _ _ _ _ live _ := live
  tried handle clause live _ literal removable blocked :=
    all handle clause literal live blocked.1 removable

theorem Unblocks.imp (unblocks : Unblocks applied pending engine)
    (further_ : ∀ handle clause literal, engine.arena.live? handle = some clause →
      clause.isRedundant = false → applied.Removable literal.var →
      ClauseForm.Blocked engine.forms clause.literals literal → pending handle literal →
      further handle literal) : Unblocks applied further engine where
  trail := unblocks.trail
  fewer := unblocks.fewer
  redundant := unblocks.redundant
  unblocked := unblocks.unblocked
  tried handle clause live irredundant literal removable blocked :=
    further_ handle clause literal live irredundant removable blocked
      (unblocks.tried handle clause live irredundant literal removable blocked)

/-- Nothing but clauses and lists matters here, and the trail. -/
theorem Unblocks.of_same (unblocks : Unblocks applied pending engine)
    (arena : after.arena = engine.arena) (trail : after.trail = engine.trail) :
    Unblocks applied pending after := by
  have forms : after.forms = engine.forms := by
    unfold Engine.forms
    rw [arena]
  exact ⟨trail.trans unblocks.trail, arena ▸ unblocks.fewer, arena ▸ unblocks.redundant,
    arena ▸ unblocks.unblocked, forms ▸ arena ▸ unblocks.tried⟩

/-- A clause that is blocked is in no set without blocked clauses. When it goes, only the
complements of its literals lose a partner. -/
theorem Unblocks.remove [Realm] (sound : engine.Sound) (unblocks : Unblocks applied pending engine)
    (live : engine.arena.live? handle = some clause) (irredundant : clause.isRedundant = false)
    (removable : applied.Removable literal.var)
    (blocked : ClauseForm.Blocked engine.forms clause.literals literal)
    (dead : after.arena.live? handle = none) (others : engine.KeepsOthers handle after)
    (trail : after.trail = engine.trail)
    (same : ∀ other, other ≠ handle → ∀ literal, pending other literal → further other literal)
    (requeued : ∀ other literal, 0 < literal.var → literal.complement ∈ clause.literals →
      applied.Removable literal.var → further other literal) :
    Unblocks applied further after := by
  have liveBefore : ∀ {other found}, after.arena.live? other = some found →
      other ≠ handle ∧ engine.arena.live? other = some found := by
    intro other found liveOther
    have different : other ≠ handle := by
      rintro rfl
      rw [dead] at liveOther
      cases liveOther
    exact ⟨different, others.live?_eq different ▸ liveOther⟩
  have liveAfter : ∀ {other found}, other ≠ handle → engine.arena.live? other = some found →
      after.arena.live? other = some found := by
    intro other found different liveOther
    rw [others.live?_eq different]
    exact liveOther
  constructor
  case trail => exact trail.trans unblocks.trail
  case fewer => exact fun other found liveOther => unblocks.fewer other found (liveBefore liveOther).2
  case redundant =>
    intro other found liveOther isRedundant
    have before := unblocks.redundant other found liveOther isRedundant
    refine liveAfter ?_ before
    rintro rfl
    rw [live, Option.some.injEq] at before
    rw [← before, irredundant] at isRedundant
    cases isRedundant
  case unblocked =>
    intro forms unblocked other found liveOther member
    have before := unblocks.unblocked forms unblocked other found liveOther member
    refine liveAfter ?_ before
    rintro rfl
    rw [live, Option.some.injEq] at before
    subst before
    have subset : forms ⊆ engine.forms := by
      intro form inside
      obtain ⟨place, stored, livePlace, rfl⟩ := unblocked.subset inside
      exact form_mem (unblocks.unblocked forms unblocked place stored livePlace inside)
    exact unblocked.unblocked _ member irredundant literal removable (blocked.mono subset)
  case tried =>
    intro other found liveOther foundIrredundant tested testable isBlocked
    obtain ⟨different, before⟩ := liveBefore liveOther
    by_cases lost : tested.complement ∈ clause.literals
    · exact requeued other tested (sound.var_lt before isBlocked.1).1 lost testable
    -- The removed clause was no partner, so the other clause was blocked before.
    refine same other different tested (unblocks.tried other found before foundIrredundant tested
      testable ⟨isBlocked.1, ?_⟩)
    rintro _ ⟨place, stored, livePlace, rfl⟩ opposite
    by_cases isGone : place = handle
    · subst isGone
      rw [live, Option.some.injEq] at livePlace
      subst livePlace
      exact absurd opposite lost
    · exact isBlocked.2 _ (form_mem (liveAfter isGone livePlace)) opposite

/-- If nothing is left to try, the clauses are the largest set without blocked ones. -/
theorem Unblocks.isGreatest (unblocks : Unblocks applied (fun _ _ => False) engine) :
    IsGreatest {forms | ClauseForm.Unblocked applied.Removable applied.forms forms}
      engine.forms := by
  refine ⟨⟨?_, ?_, ?_⟩, fun forms unblocked form member => ?_⟩
  · rintro _ ⟨handle, clause, live, rfl⟩ redundant
    exact form_mem (unblocks.redundant handle clause live redundant)
  · rintro _ ⟨handle, clause, live, rfl⟩
    exact form_mem (unblocks.fewer handle clause live)
  · rintro _ ⟨handle, clause, live, rfl⟩ irredundant literal removable blocked
    exact unblocks.tried handle clause live irredundant literal removable blocked
  · obtain ⟨handle, clause, live, rfl⟩ := unblocked.subset member
    exact form_mem (unblocks.unblocked forms unblocked handle clause live member)

/-- Copies of a clause stay or go together. -/
theorem Unblocks.live_iff (unblocks : Unblocks applied (fun _ _ => False) engine) :
    engine.arena.live? handle = some clause ↔
      applied.arena.live? handle = some clause ∧ clause.form ∈ engine.forms :=
  ⟨fun live => ⟨unblocks.fewer handle clause live, form_mem live⟩, fun ⟨live, member⟩ =>
    unblocks.unblocked _ unblocks.isGreatest.1 handle clause live member⟩

/-- A clause that is removed takes its literals along. -/
theorem liveLiterals_of_contents
    (contents : engine.arena.contents = clause.literals ::ₘ after.arena.contents) :
    engine.liveLiterals = clause.size + after.liveLiterals := by
  rw [liveLiterals_eq_weight, liveLiterals_eq_weight, Arena.weight_eq_sum, Arena.weight_eq_sum,
    contents, Multiset.map_cons, Multiset.sum_cons]
  rfl

/-- A live clause is removed and recorded. -/
theorem removeWithRecord_returns (inStep : engine.InStep) {chosen : Literal}
    (live : engine.arena.live? handle = some clause) :
    (removeWithRecord handle chosen).Returns engine fun _ after =>
      engine.arena.contents = clause.literals ::ₘ after.arena.contents ∧
        after.arena.live? handle = none ∧ engine.KeepsOthers handle after ∧
        after.trail = engine.trail := by
  have ends : (removeWithRecord handle chosen).Ends engine _ fun _ _ => False :=
    removeWithRecord_ends inStep live
  refine ((safe_removeWithRecord inStep.listed live).returns ends fun _ _ => id).imp ?_
  rintro _ after ⟨takes, dead, others, trail⟩
  refine ⟨?_, dead, others, trail⟩
  rw [← Multiset.singleton_add, ← Multiset.coe_singleton]
  exact takes.contents

end Engine

/-! ## The queue -/

namespace BlockedQueue

variable {tool : Tool BlockedQueue} {engine applied : Engine} {literal : Literal}
  {handle : Handle} {clause : Clause}

/-- The complements of the literals of removable variables enter the queue, unless they
are there. -/
theorem requeue_returns (literals : List Literal)
    (inside : ∀ literal ∈ literals, literal.var < engine.trail.vars.size) :
    (requeue literals).Returns (tool, engine) fun _ after => after.2 = engine ∧
      (tool.own ⊆ after.1.own ∧ after.1.own.length ≤ tool.own.length + literals.length) ∧
      (∀ literal ∈ literals, engine.isRemovable? literal.var = some true →
        literal.complement ∈ after.1.own) ∧
      ∀ other ∈ after.1.own, other ∈ tool.own ∨ ∃ literal ∈ literals, literal.complement = other := by
  induction literals generalizing tool with
  | nil => exact .pure ⟨rfl, ⟨List.Subset.refl _, by simp⟩, by simp, fun _ => .inl⟩
  | cons literal rest ih =>
    obtain ⟨first, others⟩ := List.forall_mem_cons.1 inside
    obtain ⟨removable, found⟩ := Engine.exists_isRemovable? first
    unfold requeue
    refine .step (Run.lift_of_done (Engine.isRemovable_of_eq_some found)) ?_
    cases removable with
    | false =>
      refine .step rfl ((ih others).imp ?_)
      rintro _ after ⟨same, ⟨subset, length⟩, listed, only⟩
      refine ⟨same, ⟨subset, length.trans (by simp)⟩, fun other member isOpen => ?_,
        fun other inQueue => ?_⟩
      · rcases List.mem_cons.1 member with rfl | later
        · rw [found] at isOpen
          cases isOpen
        · exact listed other later isOpen
      · refine (only other inQueue).imp_right ?_
        rintro ⟨from_, member, isComplement⟩
        exact ⟨from_, List.mem_cons_of_mem _ member, isComplement⟩
    | true =>
      let longer := if tool.own.contains literal.complement then tool.own
        else tool.own ++ [literal.complement]
      have grown : tool.own ⊆ longer ∧ longer.length ≤ tool.own.length + 1 ∧
          ∀ other, other ∈ longer ↔ other ∈ tool.own ∨ other = literal.complement := by
        unfold longer
        split
        next listed =>
          refine ⟨List.Subset.refl _, Nat.le_succ _, fun other => ⟨.inl, ?_⟩⟩
          rintro (known | rfl)
          · exact known
          · simpa using listed
        next => simp
      refine .step (Work.modifyOwn_apply _ tool engine) ((ih others).imp ?_)
      rintro _ after ⟨same, ⟨subset, length⟩, listed, only⟩
      refine ⟨same, ⟨List.Subset.trans grown.1 subset, ?_⟩, fun other member isOpen => ?_,
        fun other inQueue => ?_⟩
      · have := grown.2.1
        rw [List.length_cons]
        change _ ≤ longer.length + rest.length at length
        omega
      · rcases List.mem_cons.1 member with rfl | later
        · exact subset ((grown.2.2 _).2 (.inr rfl))
        · exact listed other later isOpen
      · rcases only other inQueue with earlier | ⟨from_, member, isComplement⟩
        · exact ((grown.2.2 other).1 earlier).imp_right fun isComplement =>
            ⟨literal, List.mem_cons_self, isComplement.symm⟩
        · exact .inr ⟨from_, List.mem_cons_of_mem _ member, isComplement⟩

/-- Whether a clause is blocked on a literal is seen from the clauses listed for the
complement. -/
theorem blocked_of_isBlocked? [Realm] {partners : List Handle} (sound : engine.Sound)
    (lists : engine.ListsPartners literal partners)
    (live : engine.arena.live? handle = some clause) (member : literal ∈ clause.literals)
    (blocked : Resolution.isBlocked? engine.arena literal.var clause.literals partners =
      some true) : ClauseForm.Blocked engine.forms clause.literals literal := by
  refine ⟨member, ?_⟩
  rintro _ ⟨place, partner, livePartner, rfl⟩ opposite
  obtain ⟨found, lookedUp, tautology⟩ :=
    Resolution.resolvent?_of_isBlocked? blocked place (lists place partner livePartner opposite)
  rw [(Arena.live?_eq_some.1 livePartner).1, Option.some.injEq] at lookedUp
  subst lookedUp
  exact (Resolution.resolvent?_eq_none_iff
    (.of_admits (sound.wellFormed.admits _ (Arena.contents_of_live live)))
    (.of_admits (sound.wellFormed.admits _ (Arena.contents_of_live livePartner)))).1 tautology

/-! ## Trying the literals -/

section Tries

variable [Realm] {room : Nat} {partners : List Handle}

/-- In the midst of the removal: a clause may be blocked on a literal only if the literal
waits in the queue or is about to be tried on the clause, and the queue is short enough. -/
structure Stage (applied : Engine) (room : Nat) (about : Handle → Literal → Prop)
    (state : Tool BlockedQueue × Engine) : Prop where
  sound : state.2.Sound
  unblocks : applied.Unblocks
    (fun handle literal => literal ∈ state.1.own ∨ about handle literal) state.2
  queued : ∀ literal ∈ state.1.own, 0 < literal.var ∧ literal.var < applied.trail.vars.size
  fits : state.1.own.length + state.2.liveLiterals ≤ room

/-- After tries nothing is about to be tried, unless the steps are used up. -/
def Tries (applied : Engine) (room : Nat) (goOn : Bool) (after : Tool BlockedQueue × Engine) :
    Prop :=
  if goOn then Stage applied room (fun _ _ => False) after else after.1.budget.isExhausted = true

/-- A literal need not be tried on clauses that are not blocked on it. -/
theorem Stage.imp {about fewer : Handle → Literal → Prop}
    (stage : Stage applied room about (tool, engine))
    (done : ∀ handle clause literal, engine.arena.live? handle = some clause →
      clause.isRedundant = false → applied.Removable literal.var →
      ClauseForm.Blocked engine.forms clause.literals literal → about handle literal →
      fewer handle literal) {later : Tool BlockedQueue} (same : later.own = tool.own) :
    Stage applied room fewer (later, engine) where
  sound := stage.sound
  unblocks := stage.unblocks.imp fun handle clause literal live irredundant removable blocked =>
    same ▸ Or.imp_right (done handle clause literal live irredundant removable blocked)
  queued := by
    change ∀ literal ∈ later.own, _
    rw [same]
    exact stage.queued
  fits := by
    change later.own.length + _ ≤ _
    rw [same]
    exact stage.fits

/-- A blocked clause can be removed. -/
theorem Stage.remove {rest : List Handle}
    (stage : Stage applied room (fun place other => other = literal ∧ place ∈ handle :: rest)
      (tool, engine))
    (live : engine.arena.live? handle = some clause) (irredundant : clause.isRedundant = false)
    (member : literal ∈ clause.literals) (removable : applied.Removable literal.var)
    (lists : engine.ListsPartners literal partners)
    (blocked : Resolution.isBlocked? engine.arena literal.var clause.literals partners = some true) :
    (do
      Engine.removeWithRecord handle literal
      Engine.count fun tally => { tally with blocked := tally.blocked + 1 }
      requeue clause.literals : Work BlockedQueue Unit).Returns (tool, engine) fun _ after =>
        Stage applied room (fun place other => other = literal ∧ place ∈ rest) after ∧
          after.2.arena.live? handle = none ∧ engine.KeepsOthers handle after.2 := by
  obtain ⟨sound, unblocks, queued, fits⟩ := stage
  have isBlocked := blocked_of_isBlocked? sound lists live member blocked
  have removes : Works .removal (Engine.removeWithRecord handle literal) engine _ :=
    Engine.works_removeBlocked member (removable.of_trail unblocks.trail) lists live blocked
  obtain ⟨_, removed, ended, contents, dead, others, trail⟩ :
      (Engine.removeWithRecord handle literal).Returns engine _ :=
    Engine.removeWithRecord_returns sound.toInStep live
  have soundRemoved : removed.Sound := ((removes sound).done_of_eq ended).1.sound sound
  have inside : ∀ other ∈ clause.literals,
      0 < other.var ∧ other.var < removed.trail.vars.size :=
    fun other member => trail ▸ sound.var_lt live member
  let counted : Engine :=
    { removed with tally := { removed.tally with blocked := removed.tally.blocked + 1 } }
  have requeues : (requeue clause.literals).Returns (tool, counted) _ :=
    requeue_returns clause.literals fun other member => (inside other member).2
  refine .step (Run.lift_of_done ended) (.step rfl (requeues.imp ?_))
  rintro _ ⟨after, _⟩ ⟨rfl, ⟨subset, length⟩, requeued, only⟩
  have sameTrail : removed.trail = applied.trail := trail.trans unblocks.trail
  refine ⟨⟨soundRemoved.of_same rfl rfl rfl rfl rfl rfl, ?_, fun other inQueue => ?_, ?_⟩, dead,
    others⟩
  · refine .of_same (unblocks.remove sound live irredundant removable isBlocked dead others trail
      (fun place different other waits => ?_) fun _ other positive opposite free => ?_) rfl rfl
    · exact waits.imp (fun inQueue => subset inQueue) fun ⟨isLiteral, listed⟩ =>
        ⟨isLiteral, (List.mem_cons.1 listed).resolve_left different⟩
    · -- The complement of a literal of the clause is back in the queue.
      have sameVar := Literal.var_complement positive
      have listed := requeued _ opposite (sameVar.symm ▸ (free.of_trail sameTrail).isRemovable?)
      rw [Literal.complement_complement positive] at listed
      exact .inl listed
  · rcases only other inQueue with earlier | ⟨from_, member, rfl⟩
    · exact queued other earlier
    · rw [Literal.var_complement (inside from_ member).1, ← sameTrail]
      exact inside from_ member
  · have fewer : engine.liveLiterals = clause.literals.length + removed.liveLiterals :=
      Engine.liveLiterals_of_contents contents
    change after.own.length ≤ tool.own.length + clause.literals.length at length
    change after.own.length + removed.liveLiterals ≤ room
    change tool.own.length + engine.liveLiterals ≤ room at fits
    omega

/-- The clauses of a list are tried on one literal, unless the steps are used up. -/
theorem removeBlocked_returns (handles : List Handle) (removable : applied.Removable literal.var)
    (stage : Stage applied room (fun handle other => other = literal ∧ handle ∈ handles)
      (tool, engine))
    (lists : engine.ListsPartners literal partners)
    (stored : ∀ handle ∈ partners, ∃ partner, engine.arena.live? handle = some partner ∧
      literal.complement ∈ partner.literals) :
    (removeBlocked literal partners handles).Returns (tool, engine) (Tries applied room) := by
  induction handles generalizing tool engine with
  | nil => exact .pure (stage.imp (fun _ _ _ _ _ _ _ ⟨_, none_⟩ => List.not_mem_nil none_) rfl)
  | cons handle rest ih =>
    have sound : engine.Sound := stage.sound
    have passOver : ∀ {later : Tool BlockedQueue}, later.own = tool.own →
        (∀ clause, engine.arena.live? handle = some clause → clause.isRedundant = false →
          ¬ ClauseForm.Blocked engine.forms clause.literals literal) →
        (removeBlocked literal partners rest).Returns (later, engine) (Tries applied room) := by
      intro later own isOpen
      refine ih (stage.imp (fun place found other live irredundant _ blocked waits => ?_) own)
        lists stored
      obtain ⟨rfl, member⟩ := waits
      rcases List.mem_cons.1 member with rfl | later
      · exact absurd blocked (isOpen found live irredundant)
      · exact ⟨rfl, later⟩
    unfold removeBlocked
    refine .step rfl ?_
    split
    next absent => exact passOver rfl fun clause live => by rw [absent] at live; cases live
    next clause live =>
    have isClause : ∀ found, engine.arena.live? handle = some found → found = clause :=
      fun found again => Option.some.inj (again.symm.trans live)
    split
    next unfit =>
      refine passOver rfl fun found again irredundant blocked => ?_
      obtain rfl := isClause found again
      simp [irredundant, Clause.contains, blocked.1] at unfit
    next fit =>
    rw [Bool.or_eq_true, not_or] at fit
    have irredundant : clause.isRedundant = false := by simpa using fit.1
    have member : literal ∈ clause.literals := by simpa [Clause.contains] using fit.2
    obtain ⟨goOn, budget, spent, refuses⟩ := Work.spend_done (clause.size * max partners.length 1) tool engine
    refine .step spent ?_
    cases goOn with
    | false => exact .pure (refuses rfl)
    | true =>
    rw [if_pos rfl]
    obtain ⟨blocked, isBlocked, reason⟩ := Resolution.exists_isBlocked? literal.var clause.literals
      fun place inside => (stored place inside).imp fun partner ⟨live, _⟩ =>
        (Arena.live?_eq_some.1 live).1
    rw [isBlocked]
    refine .step rfl ?_
    cases blocked with
    | false =>
      refine passOver rfl fun found again _ isBlockedHere => ?_
      obtain rfl := isClause found again
      obtain ⟨place, inside, partner, lookedUp, noTautology⟩ := reason rfl
      obtain ⟨other, livePartner, opposite⟩ := stored place inside
      rw [(Arena.live?_eq_some.1 livePartner).1, Option.some.injEq] at lookedUp
      subst lookedUp
      refine noTautology ((Resolution.resolvent?_eq_none_iff
        (.of_admits (sound.wellFormed.admits _ (Arena.contents_of_live live)))
        (.of_admits (sound.wellFormed.admits _ (Arena.contents_of_live livePartner)))).2 ?_)
      exact isBlockedHere.2 _ (Engine.form_mem livePartner) opposite
    | true =>
    have stageHere : Stage applied room _ ({ tool with budget := budget }, engine) :=
      stage.imp (fun _ _ _ _ _ _ _ => id) rfl
    obtain ⟨_, after, ended, stageAfter, dead, others⟩ :=
      stageHere.remove live irredundant member removable lists isBlocked
    have continued : (do
        let _ ← (do
          Engine.removeWithRecord handle literal
          Engine.count fun tally => { tally with blocked := tally.blocked + 1 }
          requeue clause.literals : Work BlockedQueue Unit)
        removeBlocked literal partners rest).Returns ({ tool with budget := budget }, engine)
          (Tries applied room) := by
      refine .step ended (ih stageAfter (lists.of_removed dead others) fun place isPartner => ?_)
      obtain ⟨partner, livePartner, opposite⟩ := stored place isPartner
      refine ⟨partner, ?_, opposite⟩
      rw [others.live?_eq ?_]
      · exact livePartner
      rintro rfl
      obtain rfl := isClause partner livePartner
      exact (sound.wellFormed.admits _ (Arena.contents_of_live live)).proper literal member opposite
    rw [if_pos rfl]
    simpa only [bind_assoc] using continued

/-- One literal is tried, unless the steps are used up. -/
theorem tryLiteral_returns (positive : 0 < literal.var)
    (inside : literal.var < applied.trail.vars.size)
    (stage : Stage applied room (fun _ other => other = literal) (tool, engine)) :
    (tryLiteral literal).Returns (tool, engine) (Tries applied room) := by
  have sound : engine.Sound := stage.sound
  have sameTrail : engine.trail = applied.trail := stage.unblocks.trail
  have inTrail : literal.var < engine.trail.vars.size := sameTrail ▸ inside
  have inTrailComplement : literal.complement.var < engine.trail.vars.size :=
    Literal.var_complement positive ▸ inTrail
  have passOver : (∀ handle clause, engine.arena.live? handle = some clause →
      literal ∈ clause.literals → ¬ applied.Removable literal.var) →
      (pure true : Work BlockedQueue Bool).Returns (tool, engine) (Tries applied room) := by
    intro nothing
    refine .pure (stage.imp ?_ rfl)
    rintro handle clause _ live _ removable blocked rfl
    exact nothing handle clause live blocked.1 removable
  obtain ⟨removable, found⟩ := Engine.exists_isRemovable? inTrail
  unfold tryLiteral
  refine .step (Run.lift_of_done (Engine.isRemovable_of_eq_some found)) ?_
  cases removable with
  | false =>
    refine passOver fun _ _ _ _ removable => ?_
    rw [(removable.of_trail sameTrail).isRemovable?] at found
    cases found
  | true =>
  have free : applied.Removable literal.var :=
    (Engine.removable_of_isRemovable? found).of_trail sameTrail.symm
  obtain ⟨entry, isEntry⟩ := sound.roomy.exists_entry inTrail
  obtain ⟨opposite, isOpposite⟩ := sound.roomy.exists_entry inTrailComplement
  have listed : engine.index.list? literal = some entry.handles := by
    rw [Occurrences.list?, isEntry]
    rfl
  have listedOpposite : engine.index.list? literal.complement = some opposite.handles := by
    rw [Occurrences.list?, isOpposite]
    rfl
  rw [if_neg (by simp)]
  have counted : (Run.read fun state : Tool BlockedQueue × Engine =>
      state.2.index.count? literal) (tool, engine) = .done entry.count (tool, engine) := by
    simp [Run.read, Occurrences.count?, isEntry]
  refine .step counted ?_
  split
  next none_ =>
    refine passOver fun handle clause live member => ?_
    have some_ := Multiset.countP_pos_of_mem (p := (literal ∈ ·)) (Arena.contents_of_live live) member
    have exact := sound.tallied.count literal entry isEntry
    omega
  next some_ =>
  refine .step (Run.lift_of_done (Engine.occurrences_of_list? listedOpposite)) (.step rfl ?_)
  refine .step (Run.lift_of_done (Engine.occurrences_of_list? listed)) ?_
  refine removeBlocked_returns _ free (stage.imp ?_ rfl)
    (Engine.listsPartners_of_list sound.listed listedOpposite) fun place isPartner => ?_
  · rintro handle clause _ live _ _ blocked rfl
    exact ⟨rfl, sound.listed.mem_of_live live blocked.1 listed⟩
  · obtain ⟨inList, isLive⟩ := List.mem_filter.1 isPartner
    obtain ⟨partner, live⟩ := Option.isSome_iff_exists.1 isLive
    exact ⟨partner, live, sound.listed.sound _ _ listedOpposite place inList partner live⟩

/-- Every turn takes a literal from the queue, and a literal comes back only with one of a
clause that goes. -/
theorem loop_returns (fuel : Nat) (stage : Stage applied room (fun _ _ => False) (tool, engine))
    (enough : room < fuel) :
    (loop fuel).Returns (tool, engine) fun _ after => after.1.budget.isExhausted = false →
      after.2.Sound ∧ applied.Unblocks (fun _ _ => False) after.2 := by
  induction fuel generalizing tool engine room with
  | zero => exact absurd enough (Nat.not_lt_zero _)
  | succ fuel ih =>
    obtain ⟨sound, unblocks, queued, fits⟩ := stage
    unfold loop
    refine .step (Work.own_apply tool engine) ?_
    split
    next empty =>
      refine .pure fun _ => ⟨sound, unblocks.imp fun _ _ _ _ _ _ _ waits => ?_⟩
      rcases waits with inQueue | none_
      · rw [empty] at inQueue
        exact absurd inQueue List.not_mem_nil
      · exact none_
    next literal rest queue =>
    have first := queued literal (queue ▸ List.mem_cons_self)
    refine .step (Work.modifyOwn_apply _ tool engine) ?_
    have stageRest : Stage applied (room - 1) (fun _ other => other = literal)
        ({ tool with own := rest }, engine) := by
      refine ⟨sound, unblocks.imp fun _ _ other _ _ _ _ waits => ?_, fun other member => ?_, ?_⟩
      · rcases waits with inQueue | none_
        · rw [queue] at inQueue
          exact (List.mem_cons.1 inQueue).symm
        · exact none_.elim
      · exact queued other (queue ▸ List.mem_cons_of_mem _ member)
      · change rest.length + engine.liveLiterals ≤ room - 1
        change tool.own.length + engine.liveLiterals ≤ room at fits
        rw [queue, List.length_cons] at fits
        omega
    refine (tryLiteral_returns first.1 first.2 stageRest).bind ?_
    rintro goOn ⟨after, engineAfter⟩ tries
    cases goOn with
    | true => exact ih tries (by change tool.own.length + _ ≤ room at fits; rw [queue, List.length_cons] at fits; omega)
    | false => exact .pure fun left => absurd tries (by simp [Tries, left])

/-- All literals of removable variables can be listed. -/
theorem exists_removableLiterals? (sound : engine.Sound) (names : List Nat)
    (inside : ∀ name ∈ names, 0 < name ∧ name < engine.trail.vars.size) :
    ∃ counted, removableLiterals? engine names = some counted ∧
      (∀ pair ∈ counted, pair.1.var ∈ names) ∧
      ∀ name ∈ names, engine.Removable name → ∀ positive,
        ∃ number, (Literal.ofVar name positive, number) ∈ counted := by
  induction names with
  | nil => exact ⟨[], rfl, by simp, by simp⟩
  | cons name rest ih =>
    obtain ⟨⟨present, small⟩, insideRest⟩ := List.forall_mem_cons.1 inside
    obtain ⟨others, listed, only, all⟩ := ih insideRest
    obtain ⟨removable, found⟩ := Engine.exists_isRemovable? small
    have fits := sound.trail.small_of_lt small
    have isVar : ∀ positive, (Literal.ofVar name positive).var = name :=
      fun positive => Literal.var_ofVar present fits
    have counts : ∀ positive, ∃ number,
        engine.index.count? (Literal.ofVar name positive).complement = some number := by
      intro positive
      have known := isVar positive
      have bound : (Literal.ofVar name positive).complement.var < engine.trail.vars.size := by
        rw [Literal.var_complement (by rwa [known]), known]
        exact small
      obtain ⟨entry, isEntry⟩ := sound.roomy.exists_entry bound
      exact ⟨entry.count, by rw [Occurrences.count?, isEntry]; rfl⟩
    cases removable with
    | false =>
      refine ⟨others, by simp [removableLiterals?, found, listed], fun pair member =>
        List.mem_cons_of_mem _ (only pair member), fun other member free => ?_⟩
      rcases List.mem_cons.1 member with rfl | later
      · rw [free.isRemovable?] at found
        cases found
      · exact all other later free
    | true =>
      obtain ⟨first, isFirst⟩ := counts true
      obtain ⟨second, isSecond⟩ := counts false
      refine ⟨(Literal.ofVar name true, first) :: (Literal.ofVar name false, second) :: others,
        by simp [removableLiterals?, found, listed, isFirst, isSecond], fun pair member => ?_,
        fun other member free positive => ?_⟩
      · rcases List.mem_cons.1 member with rfl | member
        · exact List.mem_cons.2 (.inl (isVar true))
        rcases List.mem_cons.1 member with rfl | member
        · exact List.mem_cons.2 (.inl (isVar false))
        · exact List.mem_cons_of_mem _ (only pair member)
      · rcases List.mem_cons.1 member with rfl | later
        · cases positive
          · exact ⟨second, by simp⟩
          · exact ⟨first, by simp⟩
        · obtain ⟨number, inside⟩ := all other later free positive
          exact ⟨number, List.mem_cons_of_mem _ (List.mem_cons_of_mem _ inside)⟩

/-- From the engine with applied root literals on, all literals of removable variables
are tried. -/
theorem search_returns (tool : Tool BlockedQueue) (sound : engine.Sound) : (do
      let engine ← (get : Run Engine Engine)
      let counted ← Run.access (removableLiterals? engine (List.range' 1 engine.numVars))
      let waiting := (sortBy (fun a b => decide (a.2 ≤ b.2)) counted).map fun (literal, _) => literal
      Work.modifyOwn fun _ => waiting
      loop (waiting.length + engine.liveLiterals + 1) : Work BlockedQueue Unit).Returns
    (tool, engine) fun _ after => after.1.budget.isExhausted = false →
      after.2.Sound ∧ engine.Unblocks (fun _ _ => False) after.2 := by
  have names : ∀ name, name ∈ List.range' 1 engine.numVars ↔
      0 < name ∧ name < engine.trail.vars.size := by
    intro name
    have some_ := sound.trail.nonempty
    change name ∈ List.range' 1 (engine.trail.vars.size - 1) ↔ _
    rw [List.mem_range'_1]
    omega
  obtain ⟨counted, listed, only, all⟩ := exists_removableLiterals? sound
    (List.range' 1 engine.numVars) fun name member => (names name).1 member
  refine .step (Work.getEngine_apply tool engine) ?_
  rw [listed]
  refine .step rfl ?_
  let waiting := (sortBy (fun a b => decide (a.2 ≤ b.2)) counted).map fun (literal, _) => literal
  have inQueue : ∀ literal, literal ∈ waiting ↔ ∃ number, (literal, number) ∈ counted := by
    intro literal
    unfold waiting
    simp [List.mem_map, mem_sortBy]
  refine .step (Work.modifyOwn_apply _ tool engine) ?_
  have stage : Stage engine (waiting.length + engine.liveLiterals) (fun _ _ => False)
      ({ tool with own := waiting }, engine) := by
    refine ⟨sound, .start fun handle clause literal live member free => .inl ?_,
      fun literal member => ?_, Nat.le_refl _⟩
    · have bound := sound.var_lt live member
      have inNames := (names literal.var).2 bound
      have member := all literal.var inNames free literal.isPositive
      rw [Literal.ofVar_var bound.1] at member
      exact (inQueue literal).2 member
    · obtain ⟨number, member⟩ := (inQueue literal).1 member
      exact (names literal.var).1 (only _ member)
  exact loop_returns _ stage (Nat.lt_succ_self _)

end Tries

/-- The removal of blocked clauses never gets stuck. -/
theorem safe_run [Realm] (sound : engine.Sound) (orderly : engine.trail.Orderly) :
    run.Safe (fun _ => False) (tool, engine) := by
  have works : Works .removal (liftM Engine.propagateUnits : Work BlockedQueue Unit)
      (tool, engine) _ := Works.lift Engine.works_propagateUnits
  refine works.safe_bind sound (.lift (Engine.safe_propagateUnits sound (.inr orderly))) ?_
  rintro _ ⟨later, after⟩ _ soundAfter _
  obtain ⟨_, _, ended, _⟩ := search_returns later soundAfter
  exact .of_done ended

/-- If the steps sufficed, only clauses went that cannot be kept, and no clause is left
that is blocked. -/
def Exhausts (engine : Engine) (tool : Tool BlockedQueue) (after : Engine) : Prop :=
  tool.budget.isExhausted = false → ∃ applied, Engine.propagateUnits engine = .done () applied ∧
    applied.Unblocks (fun _ _ => False) after

/-- The queue is worked through until no blocked clause is left. -/
theorem run_ends [Realm] (sound : engine.Sound) (strict : ¬ Realm.Lenient) :
    run.Ends (tool, engine) (fun _ after => Exhausts engine after.1 after.2)
      fun cause _ => cause.isUnsat = true := by
  have works : Works .removal Engine.propagateUnits engine _ := Engine.works_propagateUnits
  have ends : Engine.propagateUnits.Ends engine
      (fun _ applied => applied.Sound ∧ Engine.propagateUnits engine = .done () applied)
      fun cause _ => cause.isUnsat = true := by
    refine ((works sound).and .self).imp ?_ ?_
    · exact fun _ applied ⟨⟨leads, _⟩, ended⟩ => ⟨leads.sound sound, ended⟩
    · rintro cause after ⟨fails, _⟩
      rcases fails.reason with ⟨isUnsat, _⟩ | ⟨lenient, _⟩
      · exact isUnsat
      · exact absurd lenient strict
  refine .bind (Run.Ends.lift ends) ?_
  rintro _ ⟨later, applied⟩ ⟨_, soundApplied, ended⟩
  obtain ⟨_, after, searched, holds⟩ := search_returns later soundApplied
  exact .of_done searched fun left => ⟨applied, ended, (holds left).2⟩

/-- The removal of blocked clauses comes to a conclusion. -/
theorem process_returns [Realm] (sound : engine.Sound) (orderly : engine.trail.Orderly)
    (strict : ¬ Realm.Lenient) :
    process.Returns (tool, engine) fun status after =>
      status ≠ .unsat → Exhausts engine after.1 after.2 := by
  have concludes : process.Returns (tool, engine) fun status after => status ≠ .unsat →
      ∃ notices last, Exhausts engine after.1 last ∧ after.2 = { last with notices := notices } := by
    refine Work.process_returns fun later _ _ => ?_
    have finishes : run.Finishes (later, engine) _ _ :=
      ⟨run_ends sound strict, safe_run sound orderly⟩
    refine .bind (.of_returns finishes.attempt) fun result after reached => .step rfl ?_
    match result, reached with
    | .ok (), reached => exact .pure reached
    | .error cause, isUnsat => exact .fail isUnsat
  refine concludes.imp ?_
  rintro status ⟨after, _⟩ concluded isOpen left
  obtain ⟨notices, last, reached, rfl⟩ := concluded isOpen
  obtain ⟨applied, propagated, unblocks⟩ := reached left
  exact ⟨applied, propagated, unblocks.of_same rfl rfl⟩

/-- What the removal of blocked clauses leaves, unless the steps are used up, is the
largest set of clauses with all redundant ones in which no irredundant clause is blocked on
a literal of a removable variable. So it depends on nothing but the set of clauses and the
removable variables. -/
theorem survivors_of_process {tool : Tool BlockedQueue} {engine : Engine} (ready : engine.Ready)
    (kept : ∀ clause ∈ engine.arena.liveClauses, ∀ literal ∈ clause.literals,
      ¬ engine.trail.Removed literal.var) :
    process.Returns (tool, engine) fun status after =>
      status ≠ .unsat → after.1.budget.isExhausted = false →
        ∃ applied, Engine.propagateUnits engine = .done () applied ∧
          IsGreatest {forms | ClauseForm.Unblocked applied.Removable applied.forms forms}
            after.2.forms ∧
          after.2.forms = ClauseForm.core applied.Removable applied.forms ∧
          ∀ handle clause, after.2.arena.live? handle = some clause ↔
            applied.arena.live? handle = some clause ∧ clause.form ∈ after.2.forms := by
  let _ : Realm := .rootLenient
  have sound : engine.Sound := ready.rootSound kept
  refine (process_returns sound ready.orderly id).imp fun status after concluded isOpen left => ?_
  obtain ⟨applied, propagated, unblocks⟩ := concluded isOpen left
  exact ⟨applied, propagated, unblocks.isGreatest,
    ClauseForm.eq_core_of_isGreatest unblocks.isGreatest, fun _ _ => unblocks.live_iff⟩

/-- A chain of two clauses is blocked from its end, and four clauses without a model stay. -/
theorem survivors_of_process_chain :
    ∃ (engine applied : Engine) (tool : Tool BlockedQueue) (status : Status)
      (after : Tool BlockedQueue × Engine), engine.Ready ∧
      (∀ clause ∈ engine.arena.liveClauses, ∀ literal ∈ clause.literals,
        ¬ engine.trail.Removed literal.var) ∧
      process (tool, engine) = .done status after ∧ status ≠ .unsat ∧
      after.1.budget.isExhausted = false ∧ engine.arena.active = 6 ∧ after.2.arena.active = 4 ∧
      Engine.propagateUnits engine = .done () applied ∧
      after.2.forms = ClauseForm.core applied.Removable applied.forms := by
  obtain ⟨_, start, made, isOpen, before, status, after, ended, notUnsat, left, now⟩ :
      (Simplifier.addClauses [[1, 2], [1, -2], [-1, 2], [-1, -2], [2, 3], [-3, 4]]).Returns
        (.ofVars {} 4) fun _ start => start.engine.unsat = false ∧
          start.engine.arena.active = 6 ∧
          process.Returns (start.tools.blockedClauses, start.engine) fun status after =>
            status ≠ .unsat ∧ after.1.budget.isExhausted = false ∧ after.2.arena.active = 4 := by
    decide +kernel
  obtain ⟨ready, kept⟩ := Simplifier.ready_of_ofClauses made (by decide) isOpen
  obtain ⟨_, _, returned, concluded⟩ :
      process.Returns (start.tools.blockedClauses, start.engine) _ :=
    survivors_of_process ready kept
  cases ended.symm.trans returned
  obtain ⟨applied, propagated, _, same, _⟩ := concluded notUnsat left
  exact ⟨start.engine, applied, _, status, after, ready, kept, ended, notUnsat, left, before,
    now, propagated, same⟩

end BlockedQueue

end CnfSimplifier
