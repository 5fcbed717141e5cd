import CnfSimplifier.Proofs.BlockedFixpoint
import CnfSimplifier.Proofs.GrowthBound

/-!
# Sweeping the sides of a variable

Before a variable is eliminated the blocked clauses of either sign go. A clause is held
against all clauses with the complement of its literal, and none of those goes while its
side is swept. So the order does not matter: what a sweep leaves are the clauses that were
not blocked when it began. The clauses with the complement are swept after that, and held
against what is left.
-/
namespace CnfSimplifier

/-! ## Sweeping a set of clauses -/

namespace ClauseForm

/-- The clauses that are left when the irredundant ones blocked on a literal go. -/
def sweep (forms : Set ClauseForm) (literal : Literal) : Set ClauseForm :=
  {form ∈ forms | form.redundant = true ∨ ¬ Blocked forms form.literals literal}

end ClauseForm

namespace Resolution

variable {arena after : Arena} {pivot : Nat} {literals : List Literal} {partners : List Handle}

/-- Whether a clause is blocked is a matter of its partners only. -/
theorem isBlocked?_congr
    (same : ∀ handle ∈ partners, after.get? handle = arena.get? handle) :
    isBlocked? after pivot literals partners = isBlocked? arena pivot literals partners := by
  induction partners with
  | nil => rfl
  | cons handle rest ih =>
    obtain ⟨first, others⟩ := List.forall_mem_cons.1 same
    simp only [isBlocked?, first, ih others]

end Resolution

/-- A clause in its form is stored in order. -/
theorem FormedOver.tidy {numVars : Nat} {literals : List Literal}
    (formed : FormedOver numVars literals) : Tidy literals where
  present literal inside := (formed.inRange literal inside).1
  sorted := formed.ascending
  unopposed := formed.proper

namespace Engine

variable {engine before middle after : Engine} {handle : Handle} {clause : Clause}
  {literal : Literal} {removed more : List Handle}

/-! ## Exactly these clauses -/

/-- Exactly the clauses of some handles went. If there are none, nothing happened. -/
structure Drops (removed : List Handle) (before after : Engine) : Prop where
  filed : ∀ room, Filed room before.index before.arena → Filed room after.index after.arena
  dead : ∀ handle ∈ removed, after.arena.live? handle = none
  others : ∀ handle, handle ∉ removed → after.arena.get? handle = before.arena.get? handle
  trail : after.trail = before.trail
  settings : after.settings = before.settings
  idle : removed = [] → after = before

namespace Drops

theorem refl : Drops [] engine engine where
  filed _ filed := filed
  dead := by simp
  others _ _ := rfl
  trail := rfl
  settings := rfl
  idle _ := rfl

theorem trans (first : Drops removed before middle) (second : Drops more middle after) :
    Drops (removed ++ more) before after where
  filed room filed := second.filed room (first.filed room filed)
  dead handle member := by
    by_cases later : handle ∈ more
    · exact second.dead handle later
    · have early := (List.mem_append.1 member).resolve_right later
      rw [Arena.live?, second.others handle later]
      exact first.dead handle early
  others handle absent := by
    rw [List.mem_append, not_or] at absent
    exact (second.others handle absent.2).trans (first.others handle absent.1)
  trail := second.trail.trans first.trail
  settings := second.settings.trans first.settings
  idle none_ := by
    obtain ⟨first_, second_⟩ := List.append_eq_nil_iff.1 none_
    exact (second.idle second_).trans (first.idle first_)

/-- What went was there before, and what was there and did not go is there still. -/
theorem live?_eq_some (drops : Drops removed before after) :
    after.arena.live? handle = some clause ↔
      before.arena.live? handle = some clause ∧ handle ∉ removed := by
  by_cases member : handle ∈ removed
  · simp [drops.dead handle member, member]
  · rw [Arena.live?, drops.others handle member]
    exact ⟨fun live => ⟨live, member⟩, And.left⟩

/-- Handles of other clauses are as good as before. -/
theorem distinct {handles : List Handle} (drops : Drops removed before after)
    (distinct : before.arena.Distinct handles) (apart : ∀ handle ∈ handles, handle ∉ removed) :
    after.arena.Distinct handles := by
  refine ⟨distinct.nodup, fun handle member => ?_⟩
  obtain ⟨clause, live⟩ := distinct.live handle member
  exact ⟨clause, drops.live?_eq_some.2 ⟨live, apart handle member⟩⟩

end Drops

/-- Removing a clause drops this clause only. -/
theorem removeClause_drops (live : engine.arena.live? handle = some clause) :
    (removeClause handle).Ends engine (fun _ after => Drops [handle] engine after)
      fun _ _ => False := by
  obtain ⟨found, _⟩ := Arena.live?_eq_some.1 live
  unfold removeClause
  refine looks_clause.bind fun removed lookedUp => ?_
  rw [found, Option.some.injEq] at lookedUp
  subst lookedUp
  refine .step rfl (.seq (updateIndex_ends fun index unlisted =>
    .seq (updateArena_ends fun arena gone => ?_)))
  obtain ⟨slots, epoch, _⟩ := Arena.slots_remove found gone
  refine .of_done rfl ⟨fun room filed => (filed.remove live unlisted gone).1, fun other only => ?_,
    fun other absent => ?_, rfl, rfl, nofun⟩
  · rw [List.mem_singleton.1 only]
    simp [Arena.live?, Arena.get?_self_of_slots found slots epoch, Clause.isDead]
  · exact Arena.get?_of_slots found slots epoch (by simpa using absent)

/-- Removing a clause with a record drops this clause only. -/
theorem removeWithRecord_drops (live : engine.arena.live? handle = some clause) :
    (removeWithRecord handle literal).Ends engine (fun _ after => Drops [handle] engine after)
      fun _ _ => False := by
  unfold removeWithRecord
  refine looks_clause.bind fun removed _ => ?_
  split
  · exact removeClause_drops live
  · refine .step rfl (.imp (removeClause_drops (by exact live)) ?_ fun _ _ => id)
    rintro _ after ⟨filed, dead, others, trail, settings, _⟩
    exact ⟨filed, dead, others, trail, settings, nofun⟩

end Engine

namespace Eliminator

open Engine

variable {state before after : Tool Eliminator × Engine} {literal : Literal}
  {partners removed : List Handle} {engine : Engine}

/-! ## Sweeping a side -/

/-- Whether a clause is blocked on a literal against the given partners. -/
def blockedBy? (arena : Arena) (literal : Literal) (partners : List Handle) (handle : Handle) :
    Option Bool :=
  Resolution.isBlocked? arena literal.var (arena.text handle) partners

/-- Of a side the clauses from some place on were held against the partners, as far as the
steps sufficed. -/
structure Sweeps (literal : Literal) (partners : List Handle) (side : Array Handle) (place : Nat)
    (touched : List Nat) (before : Tool Eliminator × Engine)
    (result : Bool × Array Handle × List Nat) (after : Tool Eliminator × Engine)
    (removed : List Handle) : Prop where
  drops : Drops removed before.2 after.2
  own : after.1.own = before.1.own
  touched : result.2.2 =
    touched ++ removed.flatMap fun handle => (before.2.arena.text handle).map Literal.var
  perm : (removed ++ result.2.1.toList).Perm side.toList
  blocked : ∀ handle ∈ removed, blockedBy? before.2.arena literal partners handle = some true
  left : result.1 = true → ∀ handle ∈ result.2.1.toList,
    (∃ earlier < place, side[earlier]? = some handle) ∨
      blockedBy? before.2.arena literal partners handle = some false
  enough : result.1 = false → after.1.budget.isExhausted = true

namespace Sweeps

variable {side : Array Handle} {place : Nat} {touched : List Nat} {handle : Handle}
  {middle : Tool Eliminator × Engine} {result : Bool × Array Handle × List Nat}

/-- A blocked clause went, and the last one was put in its place. -/
theorem cons (here : side[place]? = some handle) (distinct : before.2.arena.Distinct side.toList)
    (apart : ∀ handle ∈ side.toList, handle ∉ partners)
    (blocked : blockedBy? before.2.arena literal partners handle = some true)
    (first : Drops [handle] before.2 middle.2) (own : middle.1.own = before.1.own)
    (rest : Sweeps literal partners (side.swapIfInBounds place (side.size - 1)).pop place
      (touched ++ (before.2.arena.text handle).map Literal.var) middle result after removed) :
    Sweeps literal partners side place touched before result after (handle :: removed) := by
  have perm := Bag.swapPop_perm here
  have nodup := List.nodup_cons.1 (perm.nodup_iff.2 distinct.nodup)
  have inSide : ∀ other, other ∈ removed ∨ other ∈ result.2.1.toList →
      other ≠ handle ∧ other ∈ side.toList := by
    intro other member
    have inRest := rest.perm.mem_iff.1 (List.mem_append.2 member)
    exact ⟨fun same => nodup.1 (same ▸ inRest), perm.mem_iff.1 (List.mem_cons_of_mem _ inRest)⟩
  have text : ∀ other, other ≠ handle →
      middle.2.arena.text other = before.2.arena.text other := by
    intro other different
    rw [Arena.text, first.others other (by simpa using different)]
    rfl
  -- The partners are no clauses of the side, so the verdicts are the same as before.
  have judged : ∀ other, other ≠ handle → blockedBy? middle.2.arena literal partners other =
      blockedBy? before.2.arena literal partners other := by
    intro other different
    unfold blockedBy?
    rw [text other different]
    refine Resolution.isBlocked?_congr fun partner member => first.others partner ?_
    rw [List.mem_singleton]
    rintro rfl
    exact apart partner (Array.mem_toList_iff.2 (Array.mem_of_getElem? here)) member
  constructor
  case drops => exact first.trans rest.drops
  case own => exact rest.own.trans own
  case touched =>
    rw [rest.touched, List.flatMap_cons, List.append_assoc]
    congr 2
    exact List.flatMap_congr fun other member => by rw [text other (inSide other (.inl member)).1]
  case perm => exact (rest.perm.cons handle).trans perm
  case blocked =>
    refine List.forall_mem_cons.2 ⟨blocked, fun other member => ?_⟩
    rw [← judged other (inSide other (.inl member)).1]
    exact rest.blocked other member
  case left =>
    intro enough other member
    obtain ⟨different, _⟩ := inSide other (.inr member)
    rcases rest.left enough other member with ⟨earlier, before_, there⟩ | isFree
    · refine .inl ⟨earlier, before_, ?_⟩
      have inside := (Array.getElem?_eq_some_iff.1 here).1
      rw [Array.getElem?_pop, if_pos (by rw [Array.size_swapIfInBounds]; omega),
        Gate.getElem?_swapIfInBounds inside (by omega), if_neg (by omega), if_neg (by omega)] at there
      exact there
    · rw [judged other different] at isFree
      exact .inr isFree
  case enough => exact rest.enough

/-- A clause that is not blocked stays in its place. -/
theorem pass (here : side[place]? = some handle)
    (isFree : blockedBy? before.2.arena literal partners handle = some false)
    (ponders : Ponders before middle)
    (rest : Sweeps literal partners side (place + 1) touched middle result after removed) :
    Sweeps literal partners side place touched before result after removed := by
  obtain ⟨own, same⟩ := ponders
  obtain ⟨drops, ownRest, touched, perm, blocked, left, enough⟩ := rest
  rw [same] at drops touched blocked left
  refine ⟨drops, ownRest.trans own, touched, perm, blocked, fun isDone other member => ?_, enough⟩
  rcases left isDone other member with ⟨earlier, below, there⟩ | free
  · rcases Nat.lt_succ_iff_lt_or_eq.1 below with sooner | rfl
    · exact .inl ⟨earlier, sooner, there⟩
    · rw [here, Option.some.injEq] at there
      exact .inr (there ▸ isFree)
  · exact .inr free

end Sweeps

/-- The loop over one side drops the blocked clauses of the side. -/
theorem removeBlocked_sweeps (remaining : Nat) {side : Array Handle} {touched : List Nat}
    (few : remaining ≤ side.size) (distinct : state.2.arena.Distinct side.toList)
    (apart : ∀ handle ∈ side.toList, handle ∉ partners) :
    (removeBlocked literal partners remaining side touched).Ends state
      (fun result after => ∃ removed,
        Sweeps literal partners side (side.size - remaining) touched state result after removed)
      fun _ _ => False := by
  induction remaining generalizing state side touched with
  | zero =>
    refine .pure
      ⟨[], .refl, rfl, by simp, .refl _, by simp, fun _ handle member => .inl ?_, by simp⟩
    obtain ⟨place, here⟩ := List.mem_iff_getElem?.1 member
    rw [Array.getElem?_toList] at here
    exact ⟨place, (Array.getElem?_eq_some_iff.1 here).1, here⟩
  | succ remaining ih =>
    unfold removeBlocked
    dsimp only
    have next : side.size - (remaining + 1) + 1 = side.size - remaining := by omega
    generalize side.size - (remaining + 1) = place at next ⊢
    refine Run.Looks.access.bind fun handle here => ?_
    have inSide : handle ∈ side.toList := Array.mem_toList_iff.2 (Array.mem_of_getElem? here)
    refine Run.Looks.bind Engine.looks_clause.lift fun clause found => ?_
    have text := Arena.text_of_get? found
    refine .bind (spend_exhausts _) ?_
    rintro goOn middle ⟨ponders, exhausted⟩
    have same := ponders.engine
    split
    swap
    next not =>
      refine .pure ⟨[], same ▸ .refl, ponders.own, by simp, .refl _, by simp, by simp, fun _ => ?_⟩
      exact exhausted (by simpa using not)
    refine .step rfl (Run.Looks.access.bind fun isBlocked judged => ?_)
    rw [same, ← text] at judged
    split
    next yes =>
      rw [yes] at judged
      have live : state.2.arena.live? handle = some clause := by
        obtain ⟨own, live⟩ := distinct.live handle inSide
        rw [(Arena.live?_eq_some.1 live).1, Option.some.injEq] at found
        exact found ▸ live
      have removes : (Engine.removeWithRecord handle literal).Ends middle.2 _ fun _ _ => False :=
        removeWithRecord_drops (same ▸ live)
      refine .bind (Run.Ends.lift removes) ?_
      rintro _ gone ⟨tool, drops⟩
      refine .step rfl ?_
      rw [same] at drops
      have perm := Bag.swapPop_perm here
      have nodup := List.nodup_cons.1 (perm.nodup_iff.2 distinct.nodup)
      have size : (side.swapIfInBounds place (side.size - 1)).pop.size + 1 = side.size := by
        simpa using perm.length_eq
      let counted : Tool Eliminator × Engine := (gone.1, { gone.2 with
        tally := { gone.2.tally with blocked := gone.2.tally.blocked + 1 } })
      have first : Drops [handle] state.2 counted.2 :=
        ⟨drops.filed, drops.dead, drops.others, drops.trail, drops.settings, by simp⟩
      have others : ∀ other ∈ (side.swapIfInBounds place (side.size - 1)).pop.toList,
          other ∉ [handle] ∧ other ∈ side.toList := fun other member =>
        ⟨fun only => nodup.1 (List.mem_singleton.1 only ▸ member),
          perm.mem_iff.1 (List.mem_cons_of_mem _ member)⟩
      have distinctRest : counted.2.arena.Distinct
          (side.swapIfInBounds place (side.size - 1)).pop.toList :=
        first.distinct ((distinct.of_perm perm).of_sublist (List.sublist_cons_self _ _))
          fun other member => (others other member).1
      refine Run.Ends.imp (ih (by omega) distinctRest fun other member =>
        apart other (others other member).2) ?_ fun _ _ => id
      rintro result after ⟨removed, rest⟩
      refine ⟨handle :: removed, .cons here distinct apart judged first (by rw [tool, ponders.own]) ?_⟩
      rw [text]
      convert rest using 1
      omega
    next no =>
      refine (ih (by omega) (same ▸ distinct) apart).imp ?_ fun _ _ => id
      rintro result after ⟨removed, rest⟩
      rw [Bool.not_eq_true] at no
      exact ⟨removed, .pass here (no ▸ judged) ponders (next ▸ rest)⟩

/-! ## What a sweep leaves -/

section Forms

variable {side : Array Handle} {others redundant : List Handle} {touched : List Nat}
  {result : Bool × Array Handle × List Nat} {handle : Handle} {clause : Clause}

/-- A clause is blocked against the clauses with the complement if it is blocked within the
live clauses. -/
theorem blocked_iff (formed : ∀ handle clause, engine.arena.live? handle = some clause →
      FormedOver engine.numVars clause.literals)
    (lists : engine.ListsPartners literal partners)
    (opposite : engine.AllHave literal.complement partners)
    (live : engine.arena.live? handle = some clause) (inside : literal ∈ clause.literals)
    {verdict : Bool} (judged : blockedBy? engine.arena literal partners handle = some verdict) :
    verdict = true ↔ ClauseForm.Blocked engine.forms clause.literals literal := by
  have clashes : ∀ {other partner}, engine.arena.live? other = some partner →
      (Resolution.resolvent? literal.var clause.literals partner.literals = none ↔
        ClauseForm.Clashes literal.var clause.literals partner.literals) := by
    intro other partner liveOther
    exact Resolution.resolvent?_eq_none_iff (formed _ _ live).tidy (formed _ _ liveOther).tidy
  unfold blockedBy? at judged
  rw [Arena.text_of_live? live] at judged
  constructor
  · rintro rfl
    refine ⟨inside, ?_⟩
    rintro _ ⟨other, partner, liveOther, rfl⟩ clash
    obtain ⟨found, lookedUp, tautology⟩ :=
      Resolution.resolvent?_of_isBlocked? judged other (lists other partner liveOther clash)
    rw [(Arena.live?_eq_some.1 liveOther).1, Option.some.injEq] at lookedUp
    exact (clashes liveOther).1 (lookedUp ▸ tautology)
  · rintro ⟨_, blocked⟩
    by_contra not
    obtain ⟨again, judgedAgain, reason⟩ := Resolution.exists_isBlocked? literal.var clause.literals
      fun other member =>
        have ⟨partner, liveOther, _⟩ := opposite other member
        ⟨partner, (Arena.live?_eq_some.1 liveOther).1⟩
    rw [judged, Option.some.injEq] at judgedAgain
    obtain ⟨other, member, partner, found, tautology⟩ :=
      reason (judgedAgain ▸ Bool.eq_false_iff.2 not)
    obtain ⟨stored, liveOther, clash⟩ := opposite other member
    rw [(Arena.live?_eq_some.1 liveOther).1, Option.some.injEq] at found
    subst found
    exact tautology ((clashes liveOther).2 (blocked _ (form_mem liveOther) clash))

/-- A side was swept, as far as the steps sufficed. -/
structure Swept (literal : Literal) (side : Array Handle) (others redundant : List Handle)
    (touched : List Nat) (before : Tool Eliminator × Engine)
    (result : Bool × Array Handle × List Nat) (after : Tool Eliminator × Engine)
    (removed : List Handle) : Prop where
  drops : Drops removed before.2 after.2
  own : after.1.own = before.1.own
  touched : result.2.2 =
    touched ++ removed.flatMap fun handle => (before.2.arena.text handle).map Literal.var
  perm : (removed ++ result.2.1.toList).Perm side.toList
  splits : after.2.Splits literal result.2.1.toList others redundant
  blocked : ∀ handle ∈ removed, ∀ clause, before.2.arena.live? handle = some clause →
    clause.isRedundant = false ∧ ClauseForm.Blocked before.2.forms clause.literals literal
  forms : result.1 = true → after.2.forms = ClauseForm.sweep before.2.forms literal
  enough : result.1 = false → after.1.budget.isExhausted = true

/-- The blocked clauses of one side are dropped. -/
theorem removeBlockedSide_sweeps {room : Nat} (filed : Filed room state.2.index state.2.arena)
    (formed : ∀ handle clause, state.2.arena.live? handle = some clause →
      FormedOver state.2.numVars clause.literals)
    (splits : state.2.Splits literal side.toList others redundant) :
    (removeBlockedSide literal side touched).Ends state
      (fun result after => ∃ removed,
        Swept literal side others redundant touched state result after removed)
      fun _ _ => False := by
  have proper : ∀ handle clause, state.2.arena.live? handle = some clause →
      literal ∈ clause.literals → literal.complement ∉ clause.literals :=
    fun handle clause live => (formed handle clause live).proper literal
  unfold removeBlockedSide
  refine Run.Looks.bind Engine.looks_occurrences.lift ?_
  rintro _ ⟨handles, list, rfl⟩
  refine .step rfl ?_
  have lists := Engine.listsPartners_of_list filed.listed list
  generalize isPartners : (handles.toList.filter fun handle =>
    (state.2.arena.live? handle).isSome) = partners at lists
  have opposite : state.2.AllHave literal.complement partners := by
    intro handle member
    rw [← isPartners, List.mem_filter] at member
    obtain ⟨clause, live⟩ := Option.isSome_iff_exists.1 member.2
    exact ⟨clause, live, filed.listed.sound _ _ list handle member.1 clause live⟩
  have apart : ∀ handle ∈ side.toList, handle ∉ partners := by
    intro handle inSide isPartner
    obtain ⟨clause, live, inside⟩ := splits.own.all handle inSide
    obtain ⟨again, liveAgain, clash⟩ := opposite handle isPartner
    rw [live, Option.some.injEq] at liveAgain
    exact proper handle clause live inside (liveAgain ▸ clash)
  have distinct : state.2.arena.Distinct side.toList :=
    ⟨splits.own.distinct, fun handle member =>
      have ⟨clause, live, _⟩ := splits.own.all handle member
      ⟨clause, live⟩⟩
  refine Run.Ends.imp (removeBlocked_sweeps side.size le_rfl distinct apart) ?_ fun _ _ => id
  rintro result after ⟨removed, drops, own, touched, perm, blocked, left, enough⟩
  have gone : ∀ handle ∈ removed, ∀ clause, state.2.arena.live? handle = some clause →
      clause.isRedundant = false ∧ ClauseForm.Blocked state.2.forms clause.literals literal := by
    intro handle isGone clause live
    have inSide := perm.mem_iff.1 (List.mem_append_left _ isGone)
    obtain ⟨again, liveAgain, inside⟩ := splits.own.all handle inSide
    rw [live, Option.some.injEq] at liveAgain
    subst liveAgain
    exact ⟨splits.own.irredundant handle inSide clause live,
      (blocked_iff formed lists opposite live inside (blocked handle isGone)).1 rfl⟩
  refine ⟨removed, drops, own, touched, perm, splits.of_gone proper (fun _ _ => drops.live?_eq_some) perm drops.trail, gone, ?_,
    enough⟩
  intro isDone
  ext form
  constructor
  · rintro ⟨handle, clause, live, rfl⟩
    obtain ⟨before, absent⟩ := drops.live?_eq_some.1 live
    refine ⟨form_mem before, ?_⟩
    by_contra neither
    obtain ⟨irredundant, isBlocked⟩ := not_or.1 neither
    rw [not_not] at isBlocked
    rcases splits.own.covers handle clause before isBlocked.1 with isOwn | isRedundant
    · have stays := (List.mem_append.1 (perm.mem_iff.2 isOwn)).resolve_left absent
      rcases left isDone handle stays with ⟨place, below, _⟩ | isFree
      · omega
      · have verdict := (blocked_iff formed lists opposite before isBlocked.1 isFree).2 isBlocked
        cases verdict
    · obtain ⟨again, liveAgain, redundant⟩ := splits.redundant handle isRedundant
      rw [before, Option.some.injEq] at liveAgain
      exact irredundant (liveAgain ▸ redundant)
  · rintro ⟨⟨handle, clause, live, rfl⟩, stays⟩
    refine form_mem (drops.live?_eq_some.2 ⟨live, fun isGone => ?_⟩)
    obtain ⟨irredundant, isBlocked⟩ := gone handle isGone clause live
    rcases stays with redundant | isFree
    · exact Bool.false_ne_true (irredundant.symm.trans redundant)
    · exact isFree isBlocked

/-- Clauses keep their form while others go. -/
theorem Swept.formed (swept : Swept literal side others redundant touched before result after removed)
    (formed : ∀ handle clause, before.2.arena.live? handle = some clause →
      FormedOver before.2.numVars clause.literals) :
    ∀ handle clause, after.2.arena.live? handle = some clause →
      FormedOver after.2.numVars clause.literals := by
  intro handle clause live
  have sameVars : after.2.numVars = before.2.numVars := congrArg Trail.numVars swept.drops.trail
  rw [sameVars]
  exact formed handle clause (swept.drops.live?_eq_some.1 live).1

end Forms

/-! ## The start of an attempt -/

end Eliminator

namespace Engine

variable {engine : Engine} {literal : Literal}

/-- The live irredundant clauses with a literal, in the order of its list. -/
def irredundantWith (engine : Engine) (literal : Literal) : List Handle :=
  ((engine.index.list? literal).getD #[]).toList.filter fun handle =>
    (engine.arena.live? handle).any fun clause =>
      clause.contains literal && !clause.isRedundant

/-- The sides of a variable, in the order that its gate gives them if gates are used. -/
def sides? (engine : Engine) (pivot : Nat) : Option GateSides :=
  let positive := (engine.irredundantWith (Literal.ofVar pivot true)).toArray
  let negative := (engine.irredundantWith (Literal.ofVar pivot true).complement).toArray
  if engine.settings.gates then Gate.search? engine.arena pivot positive negative
  else some ⟨positive, negative, none⟩

/-- The two sides are the irredundant clauses of the two literals. -/
theorem sides?_perm {pivot : Nat} {sides : GateSides} (chosen : engine.sides? pivot = some sides) :
    sides.positive.toList.Perm (engine.irredundantWith (Literal.ofVar pivot true)) ∧
      sides.negative.toList.Perm
        (engine.irredundantWith (Literal.ofVar pivot true).complement) := by
  unfold sides? at chosen
  split at chosen
  · exact Gate.search?_perm chosen
  · cases chosen
    exact ⟨.refl _, .refl _⟩

end Engine

namespace Eliminator

variable {engine : Engine} {pivot : Nat}

/-- A look for the clauses with a literal finds the irredundant ones in their order, and
the redundant ones. -/
theorem clausesWith_finds (listed : Listed engine.index engine.arena) :
    (clausesWith literal).Looks engine fun found => engine.Side literal found.1 found.2 ∧
      (∀ handle ∈ found.2, ∃ clause, engine.arena.live? handle = some clause ∧
        clause.isRedundant = true ∧ literal ∈ clause.literals) ∧
      found.1 = engine.irredundantWith literal := by
  have inOrder : (clausesWith literal).Looks engine fun found =>
      found.1 = engine.irredundantWith literal := by
    unfold clausesWith
    refine Engine.looks_occurrences.bind ?_
    rintro _ ⟨handles, list, rfl⟩
    refine .step rfl (.pure ⟨rfl, ?_⟩)
    simp only [List.partition_eq_filter_filter, Engine.irredundantWith, list, Option.getD_some,
      List.filter_filter]
    refine List.filter_congr fun handle _ => ?_
    unfold Arena.holds Arena.live?
    cases engine.arena.get? handle with
    | none => rfl
    | some clause =>
      cases dead : clause.isDead <;> simp [dead, Bool.and_comm]
  refine ((clausesWith_looks listed).and inOrder).imp ?_ fun _ _ => And.left
  rintro found _ ⟨⟨rfl, side, _, redundant⟩, _, same⟩
  exact ⟨rfl, side, redundant, same⟩

/-- The given clauses are redundant ones of a variable. -/
def AreRedundant (engine : Engine) (pivot : Nat) (handles : List Handle) : Prop :=
  ∀ handle ∈ handles, ∃ clause, engine.arena.live? handle = some clause ∧
    clause.isRedundant = true ∧ ∃ other ∈ clause.literals, other.var = pivot

/-- What an attempt knows before it changes anything. -/
structure Begins (engine : Engine) (pivot : Nat) (sides : GateSides) (redundant : List Handle) :
    Prop where
  chosen : engine.sides? pivot = some sides
  splits : engine.Splits (Literal.ofVar pivot true) sides.positive.toList sides.negative.toList
    redundant
  redundant : AreRedundant engine pivot redundant

/-- Whether a variable is passed over: no gate was found, and it has too many occurrences. -/
def passesOver (engine : Engine) (sides : GateSides) : Bool :=
  sides.gate.isNone && engine.settings.skips sides.positive.size sides.negative.size

/-- An attempt runs out of steps while it looks for a gate, or it passes a variable with
too many occurrences and no gate, or it goes on with the sides. -/
theorem eliminate_ends {done : List Nat → Tool Eliminator × Engine → Prop}
    {failed : Error → Tool Eliminator × Engine → Prop}
    (listed : Listed state.2.index state.2.arena) (removable : state.2.Removable pivot)
    (positivePivot : 0 < pivot) (small : 2 * pivot + 1 < UInt32.size)
    (short : ∀ after, Ponders state after → after.1.budget.isExhausted = true → done [] after)
    (skipped : ∀ after sides redundant, Ponders state after →
      Begins state.2 pivot sides redundant → passesOver state.2 sides = true → done [] after)
    (tries : ∀ after sides redundant, Ponders state after →
      Begins state.2 pivot sides redundant → passesOver state.2 sides = false →
      (if state.2.settings.blockedDuringElimination then afterBlocked pivot sides redundant
        else decideElimination pivot sides redundant []).Ends after done failed) :
    (eliminate pivot).Ends state done failed := by
  have isPivot : (Literal.ofVar pivot true).var = pivot := Literal.var_ofVar positivePivot small
  have ofComplement : (Literal.ofVar pivot true).complement.var = pivot :=
    (Literal.var_complement (by rwa [isPivot])).trans isPivot
  unfold eliminate
  refine Run.Looks.bind (clausesWith_finds listed).lift ?_
  rintro ⟨positive, positiveRedundant⟩ ⟨own, ownRedundant, rfl⟩
  refine Run.Looks.bind (clausesWith_finds listed).lift ?_
  rintro ⟨negative, negativeRedundant⟩ ⟨others, othersRedundant, rfl⟩
  dsimp only at own ownRedundant others othersRedundant ⊢
  have splits : state.2.Splits (Literal.ofVar pivot true) _ _
      (positiveRedundant ++ negativeRedundant) :=
    .of_sides (by rwa [isPivot]) (by rwa [isPivot]) own others
      (fun handle member =>
        have ⟨clause, live, isRedundant, _⟩ := ownRedundant handle member
        ⟨clause, live, isRedundant⟩)
      fun handle member =>
        have ⟨clause, live, isRedundant, _⟩ := othersRedundant handle member
        ⟨clause, live, isRedundant⟩
  have areRedundant : AreRedundant state.2 pivot (positiveRedundant ++ negativeRedundant) := by
    refine List.forall_mem_append.2 ⟨fun handle member => ?_, fun handle member => ?_⟩
    · obtain ⟨clause, live, isRedundant, inside⟩ := ownRedundant handle member
      exact ⟨clause, live, isRedundant, _, inside, isPivot⟩
    · obtain ⟨clause, live, isRedundant, inside⟩ := othersRedundant handle member
      exact ⟨clause, live, isRedundant, _, inside, ofComplement⟩
  refine .step rfl ?_
  have goesOn : ∀ (sides : GateSides) (middle : Tool Eliminator × Engine), Ponders state middle →
      state.2.sides? pivot = some sides →
      Run.Ends (if (sides.gate.isNone && state.2.settings.skips
          (state.2.irredundantWith (Literal.ofVar pivot true)).length
          (state.2.irredundantWith (Literal.ofVar pivot true).complement).length) = true then pure []
        else if state.2.settings.blockedDuringElimination = true then
          afterBlocked pivot sides (positiveRedundant ++ negativeRedundant)
        else decideElimination pivot sides (positiveRedundant ++ negativeRedundant) [])
        middle done failed := by
    intro sides middle ponders chosen
    obtain ⟨permPositive, permNegative⟩ := Engine.sides?_perm chosen
    have begins : Begins state.2 pivot sides (positiveRedundant ++ negativeRedundant) :=
      ⟨chosen, ⟨splits.own.of_perm permPositive, splits.others.of_perm permNegative,
        splits.redundant, splits.removable, splits.present⟩, areRedundant⟩
    have sizes : passesOver state.2 sides = (sides.gate.isNone && state.2.settings.skips
        (state.2.irredundantWith (Literal.ofVar pivot true)).length
        (state.2.irredundantWith (Literal.ofVar pivot true).complement).length) := by
      unfold passesOver
      rw [← permPositive.length_eq, ← permNegative.length_eq, Array.length_toList,
        Array.length_toList]
    rw [← sizes]
    split
    next passed => exact .pure (skipped middle sides _ ponders begins passed)
    next tried => exact tries middle sides _ ponders begins (Bool.eq_false_iff.2 tried)
  dsimp only
  by_cases gates : state.2.settings.gates = true
  · simp only [gates, if_true]
    refine .bind (spend_exhausts _)
      fun enough middle ⟨ponders, exhausted⟩ => ?_
    split
    swap
    next not => exact .pure (short middle ponders (exhausted (by simpa using not)))
    refine Run.Looks.bind Run.Looks.read.lift fun sides searched => ?_
    refine goesOn sides middle ponders ?_
    rw [ponders.engine] at searched
    rw [Engine.sides?, if_pos gates]
    exact searched
  · simp only [gates, if_false, Bool.false_eq_true]
    refine .step rfl (goesOn _ state ⟨rfl, rfl⟩ ?_)
    rw [Engine.sides?, if_neg gates]

end Eliminator

end CnfSimplifier
