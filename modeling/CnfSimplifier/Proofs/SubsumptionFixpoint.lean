import CnfSimplifier.Proofs.SubsumptionSearch

/-!
# The fixed point of subsumption

A clause that is used is tried on all clauses with its rarest variable. Afterwards no other
clause has to do with it, and it is marked as no candidate any more. Since the others only
lose literals, it has nothing to do with them later on either, as long as it stays as it
is. If it loses a literal, it is a candidate again.

So at any time the clauses that are no candidates have nothing to do with other clauses, and
subsumption ends when there are no candidates, unless the steps are used up before. A pass
over the queue leaves candidates only if a literal went, and within a pass a clause comes
back into the queue only after it lost a literal. Hence the literals of the live clauses
bound the passes as well as the turns.
-/
namespace CnfSimplifier

namespace Subsumption

variable {arena after : Arena} {literals : List Literal} {handle : Handle}

/-- Each variable of a related clause is in the other clause. -/
theorem Relates.meets {first second : List Literal} (relates : Relates first second)
    {literal : Literal} (member : literal ∈ first) :
    literal ∈ second ∨ literal.complement ∈ second := by
  rcases relates with part | ⟨flipped, _, part⟩
  · exact .inl (part member)
  · by_cases same : literal = flipped
    · exact .inr (same ▸ part List.mem_cons_self)
    · exact .inl (part (List.mem_cons_of_mem _ ((List.mem_erase_of_ne same).2 member)))

/-- A clause that is at a handle has nothing to do with the given literals. -/
def Spares (literals : List Literal) (arena : Arena) (handle : Handle) : Prop :=
  ∀ clause, arena.live? handle = some clause → ¬ Relates literals clause.literals

/-- A clause that lost literals has still nothing to do with them. -/
theorem Spares.of_wears (spares : Spares literals arena handle) (wears : arena.WearsTo after) :
    Spares literals after handle := by
  intro clause live relates
  obtain ⟨old, liveOld, wearsOld⟩ := wears.live_old live
  exact spares old liveOld (relates.mono wearsOld.literals.subset)

end Subsumption

namespace Subsumer

open Subsumption

variable [Realm] {limit : UInt64} {slack : Nat} {before middle after state : Tool Subsumer × Engine}
  {handle : Handle} {clause : Clause} {known : Option Implications} {literals : List Literal}

/-! ## The queue -/

omit [Realm] in
/-- If no literal went, the candidates were candidates. -/
theorem candidate_old {arena later : Arena} (wears : arena.WearsTo later)
    (weight : later.weight = arena.weight) (live : later.live? handle = some clause)
    (candidate : clause.isCandidate = true) :
    ∃ old, arena.live? handle = some old ∧ old.isCandidate = true := by
  obtain ⟨old, liveOld, wearsOld⟩ := wears.live_old live
  refine ⟨old, liveOld, (wearsOld.comes candidate).resolve_right fun shorter => ?_⟩
  have lighter := wears.weight_lt (Arena.live?_eq_some.1 liveOld).1 (Arena.live?_eq_some.1 live).1
    (by rwa [Clause.weight_of_live live, Clause.weight_of_live liveOld])
  exact lighter.ne weight

/-- The live clauses that are marked as waiting are in the queue. -/
def Waits (state : Tool Subsumer × Engine) : Prop :=
  ∀ handle clause, state.2.arena.live? handle = some clause → clause.isQueued = true →
    handle ∈ state.1.own.queue

/-- The handles in the queue were given out since the last compaction. -/
def Fresh (state : Tool Subsumer × Engine) : Prop :=
  ∀ handle ∈ state.1.own.queue, handle.epoch = state.2.arena.epoch

/-- The live clauses that were marked as waiting are marked. -/
def StayMarked (arena after : Arena) : Prop :=
  ∀ handle old clause, arena.live? handle = some old → after.live? handle = some clause →
    old.isQueued = true → clause.isQueued = true

omit [Realm] in
theorem StayMarked.refl (arena : Arena) : StayMarked arena arena := by
  intro handle old clause live same queued
  rwa [← Option.some.inj (live.symm.trans same)]

omit [Realm] in
theorem StayMarked.trans {arena between later : Arena} (first : StayMarked arena between)
    (wears : between.WearsTo later) (second : StayMarked between later) : StayMarked arena later := by
  intro handle old clause live liveLater queued
  obtain ⟨copy, liveCopy, _⟩ := wears.live_old liveLater
  exact second handle copy clause liveCopy liveLater (first handle old copy live liveCopy queued)

/-- Clauses joined the queue, and nothing else happened. -/
structure Joins (before after : Tool Subsumer × Engine) : Prop where
  sound : after.2.Sound
  leads : before.2.Leads .equivalence after.2
  wears : before.2.arena.WearsTo after.2.arena
  weight : after.2.arena.weight = before.2.arena.weight
  has : ∀ place literals, before.2.HasLive place literals → after.2.HasLive place literals
  budget : after.1.budget = before.1.budget
  graph : after.1.own.graph = before.1.own.graph
  waits : Waits before → Waits after
  marked : StayMarked before.2.arena after.2.arena
  joined : ∀ handle ∈ after.1.own.queue,
    handle ∈ before.1.own.queue ∨ handle.epoch = before.2.arena.epoch

theorem Joins.refl (sound : state.2.Sound) : Joins state state :=
  ⟨sound, .refl sound, .refl _, rfl, fun _ _ => id, rfl, rfl, id, .refl _, fun _ => .inl⟩

theorem Joins.trans (first : Joins before middle) (second : Joins middle after) :
    Joins before after where
  sound := second.sound
  leads := first.leads.trans second.leads
  wears := first.wears.trans second.wears
  weight := second.weight.trans first.weight
  has place literals has := second.has place literals (first.has place literals has)
  budget := second.budget.trans first.budget
  graph := second.graph.trans first.graph
  waits waits := second.waits (first.waits waits)
  marked := first.marked.trans second.wears second.marked
  joined handle member := (second.joined handle member).elim (first.joined handle)
    fun same => .inr (same.trans first.wears.epoch)

/-- A live clause is marked after it was put into the queue. -/
theorem enqueue_returns (sound : state.2.Sound) : (enqueue handle).Returns state fun _ after =>
    Joins state after ∧ after.1.own.queue.length ≤ state.1.own.queue.length + 1 ∧
      ∀ clause, after.2.arena.live? handle = some clause → clause.isQueued = true := by
  unfold enqueue
  refine .step rfl ?_
  split
  next absent =>
    refine .pure ⟨.refl sound, Nat.le_succ _, fun clause live => ?_⟩
    cases absent.symm.trans live
  next clause live =>
  split
  next queued =>
    refine .pure ⟨.refl sound, Nat.le_succ _, fun other same => ?_⟩
    rwa [← Option.some.inj (live.symm.trans same)]
  next =>
    obtain ⟨found, alive⟩ := Arena.live?_eq_some.1 live
    obtain ⟨_, after, ended, soundAfter, leads, marks, remarks⟩ :
        (Engine.markClause handle fun flags => { flags with queued := true }).Returns state.2 _ :=
      Engine.markClause_returns sound found (fun _ => rfl) fun _ => rfl
    refine .step (Run.lift_of_done ended) (.of_done rfl ⟨?_, ?_, fun copy liveCopy => ?_⟩)
    · refine ⟨soundAfter, leads, marks.wearsTo found (.of_flags rfl id rfl), ?_,
        fun _ _ has => has.of_sameClauses remarks.clauses, rfl, rfl, ?_, ?_, ?_⟩
      · rw [Arena.weight_eq_sum, Arena.weight_eq_sum, remarks.clauses.contents]
      · intro waits other copy liveCopy queued
        rcases marks.live_old found rfl liveCopy with ⟨rfl, _⟩ | ⟨_, liveOld⟩
        · exact List.mem_append_right _ List.mem_cons_self
        · exact List.mem_append_left _ (waits other copy liveOld queued)
      · intro other old copy liveOld liveCopy queued
        rcases marks.live_old found rfl liveCopy with ⟨_, _, rfl⟩ | ⟨_, liveSame⟩
        · rfl
        · rwa [← Option.some.inj (liveOld.symm.trans liveSame)]
      · intro other member
        refine (List.mem_append.1 member).imp_right fun last => ?_
        rw [List.mem_singleton.1 last]
        exact (Arena.get?_eq_some.1 found).1
    · rw [List.length_append]
      rfl
    · rcases marks.live_old found rfl liveCopy with ⟨_, _, rfl⟩ | ⟨different, _⟩
      · rfl
      · exact absurd rfl different

/-- Work on a clause: the others wear down, and a clause joins the queue only if it lost
a literal. -/
structure Proceeds (before after : Tool Subsumer × Engine) : Prop where
  sound : after.2.Sound
  leads : before.2.Leads .equivalence after.2
  wears : before.2.arena.WearsTo after.2.arena
  graph : after.1.own.graph = before.1.own.graph
  waits : Waits before → Waits after
  marked : StayMarked before.2.arena after.2.arena
  joined : ∀ handle ∈ after.1.own.queue,
    handle ∈ before.1.own.queue ∨ handle.epoch = before.2.arena.epoch
  fits : after.1.own.queue.length + after.2.arena.weight ≤
    before.1.own.queue.length + before.2.arena.weight

theorem Proceeds.trans (first : Proceeds before middle) (second : Proceeds middle after) :
    Proceeds before after where
  sound := second.sound
  leads := first.leads.trans second.leads
  wears := first.wears.trans second.wears
  graph := second.graph.trans first.graph
  waits waits := second.waits (first.waits waits)
  marked := first.marked.trans second.wears second.marked
  joined handle member := (second.joined handle member).elim (first.joined handle)
    fun same => .inr (same.trans first.wears.epoch)
  fits := second.fits.trans first.fits

omit [Realm] in
/-- What joined the queue is as fresh as what was in it. -/
theorem Fresh.of_joined (fresh : Fresh before) (wears : before.2.arena.WearsTo after.2.arena)
    (joined : ∀ handle ∈ after.1.own.queue,
      handle ∈ before.1.own.queue ∨ handle.epoch = before.2.arena.epoch) : Fresh after :=
  fun handle member => ((joined handle member).elim (fresh handle) id).trans wears.epoch.symm

/-- Where the tool stays the queue does. -/
theorem Proceeds.of_refines (own : after.1.own = before.1.own) (refines : before.2.Refines after.2) :
    Proceeds before after where
  sound := refines.sound
  leads := refines.leads
  wears := refines.wears.arena
  graph := by rw [own]
  waits waits handle clause live queued := by
    obtain ⟨old, liveOld, same⟩ := refines.wears.queued_old live
    rw [own]
    exact waits handle old liveOld (same.trans queued)
  marked handle old clause liveOld live queued := by
    obtain ⟨before, liveBefore, same⟩ := refines.wears.queued_old live
    obtain rfl := Option.some.inj (liveOld.symm.trans liveBefore)
    exact same.symm.trans queued
  joined handle member := .inl (own ▸ member)
  fits := by
    rw [own]
    exact Nat.add_le_add_left refines.wears.arena.weight_le _

/-- A clause joins the queue after a literal went. -/
theorem Proceeds.of_joins (middle : Tool Subsumer × Engine) (own : middle.1.own = before.1.own) (refines : before.2.Refines middle.2)
    (lighter : middle.2.arena.weight < before.2.arena.weight) (joins : Joins middle after)
    (grown : after.1.own.queue.length ≤ middle.1.own.queue.length + 1) : Proceeds before after where
  sound := joins.sound
  leads := refines.leads.trans joins.leads
  wears := refines.wears.arena.trans joins.wears
  graph := by rw [joins.graph, own]
  waits waits := joins.waits ((Proceeds.of_refines own refines).waits waits)
  marked := (Proceeds.of_refines own refines).marked.trans joins.wears joins.marked
  joined handle member := (joins.joined handle member).imp (fun inQueue => own ▸ inQueue)
    fun same => same.trans refines.wears.arena.epoch
  fits := by
    rw [own] at grown
    rw [joins.weight]
    omega

/-! ## Using a clause -/

/-- A live clause was tried on others. Unless the steps are used up they have nothing to do
with it any more. -/
structure Tries (limit : UInt64) (slack : Nat) (handle : Handle) (literals : List Literal)
    (others : Handle → Prop) (before after : Tool Subsumer × Engine) : Prop where
  proceeds : Proceeds before after
  has : after.2.HasLive handle literals
  counts : after.1.budget.Counts limit (slack + 2 ^ 31)
  pays : before.1.budget.Pays after.1.budget
  spared : after.1.budget.UsedUp ∨
    ∀ other, others other → other ≠ handle → Spares literals after.2.arena other

/-- One clause was tried before the others. What was spared then is spared in the end. -/
theorem Tries.cons {other : Handle} {rest : List Handle}
    (tries : Tries limit slack handle literals (· ∈ rest) middle after)
    (proceeds : Proceeds before middle) (pays : before.1.budget.Pays middle.1.budget)
    (spares : other ≠ handle → Spares literals middle.2.arena other) :
    Tries limit slack handle literals (· ∈ other :: rest) before after where
  proceeds := proceeds.trans tries.proceeds
  has := tries.has
  counts := tries.counts
  pays := pays.trans tries.pays
  spared := tries.spared.imp_right fun spared place member different => by
    rcases List.mem_cons.1 member with rfl | later
    · exact (spares different).of_wears tries.proceeds.wears
    · exact spared place later different

/-- A clause that loses a literal joins the queue and is not related to the other one any
more. -/
theorem strengthenOther_finishes {other : Handle} {literal : Literal} {used : Clause}
    (strict : ¬ Realm.Lenient) (sound : state.2.Sound) (different : other ≠ handle)
    (liveUsed : state.2.arena.live? handle = some used)
    (live : state.2.arena.live? other = some clause)
    (strengthens : check used.literals clause.literals = .strengthens literal) :
    (liftM (Engine.strengthen other literal.complement) : Work Subsumer Unit).Finishes state
      (fun _ middle => (enqueue other).Returns middle fun _ after => Proceeds state after ∧
        after.2.HasLive handle used.literals ∧ after.1.budget = state.1.budget ∧
          Spares used.literals after.2.arena other)
      fun cause _ => cause.isUnsat = true := by
  have ascends := sound.ascends liveUsed
  obtain ⟨member, flipped, agree⟩ := resolvable_of_check ascends.1 strengthens
  have shortens : (liftM (Engine.strengthen other literal.complement) :
      Work Subsumer Unit).Finishes state _ _ :=
    .lift (Engine.strengthen_finishes sound strict live flipped
      (Engine.rup_of_resolvable sound (Arena.contents_of_live liveUsed)
        (Arena.contents_of_live live) member agree))
  refine shortens.imp ?_ fun _ _ => id
  rintro _ ⟨_, middle⟩ ⟨rfl, refines, shortened, new, foundNew, _, lighter, _⟩
  have lighter : middle.arena.weight < state.2.arena.weight :=
    refines.wears.arena.weight_lt (Arena.live?_eq_some.1 live).1 foundNew lighter
  have has : middle.HasLive handle used.literals :=
    Engine.HasLive.of_keepsOthers ⟨used, liveUsed, rfl⟩ shortened.others (Ne.symm different)
  have left : Spares used.literals middle.arena other := by
    intro found liveFound
    rw [shortened.left found liveFound]
    exact not_relates_erase ascends (sound.ascends live) member flipped
  have enqueued : (enqueue other).Returns (state.1, middle) _ := enqueue_returns refines.sound
  refine enqueued.imp fun _ after ⟨joins, grown, _⟩ => ?_
  exact ⟨.of_joins (state.1, middle) rfl refines lighter joins grown, joins.has _ _ has,
    joins.budget, left.of_wears joins.wears⟩

/-- Backward subsumption along a list comes to its end. -/
theorem backwardOn_finishes (strict : ¬ Realm.Lenient) (others : List Handle)
    (sound : state.2.Sound) (has : state.2.HasLive handle literals)
    (counts : state.1.budget.Counts limit slack) (room : slack + 2 ^ 31 < 2 ^ 63) :
    (backwardOn handle literals others).Finishes state
      (fun _ after => Tries limit slack handle literals (· ∈ others) state after)
      fun cause _ => cause.isUnsat = true := by
  induction others generalizing state with
  | nil =>
    exact .pure ⟨.of_refines rfl (.refl sound), has, counts.mono (Nat.le_add_right _ _), .refl _,
      .inr fun _ none_ => absurd none_ List.not_mem_nil⟩
  | cons other rest ih =>
    have onward : ∀ middle : Tool Subsumer × Engine, Proceeds state middle →
        middle.2.HasLive handle literals → middle.1.budget.Counts limit slack →
        state.1.budget.Pays middle.1.budget →
        (other ≠ handle → Spares literals middle.2.arena other) →
        (backwardOn handle literals rest).Finishes middle
          (fun _ after => Tries limit slack handle literals (· ∈ other :: rest) state after)
          fun cause _ => cause.isUnsat = true :=
      fun middle proceeds has counts pays spares =>
        (ih proceeds.sound has counts).imp (fun _ _ tries => tries.cons proceeds pays spares)
          fun _ _ => id
    have stay : ∀ budget : Budget, Proceeds state ({ state.1 with budget := budget }, state.2) :=
      fun _ => .of_refines rfl (.refl sound)
    unfold backwardOn
    split
    next same => exact onward state (stay _) has counts (.refl _) fun different => absurd same different
    next different =>
    refine .step rfl ?_
    split
    next absent =>
      exact onward state (stay _) has counts (.refl _) fun _ clause live =>
        nomatch absent.symm.trans live
    next clause live =>
    obtain ⟨own, liveOwn, rfl⟩ := id has
    have ascends := sound.ascends liveOwn
    have ascendsOther := sound.ascends live
    have spares : check own.literals clause.literals = .unrelated →
        Spares own.literals state.2.arena other := by
      intro unrelated found liveFound
      obtain rfl := Option.some.inj (live.symm.trans liveFound)
      exact not_relates_of_check ascends ascendsOther unrelated
    split
    next shorter =>
      refine onward state (stay _) has counts (.refl _) fun _ => spares ?_
      unfold check
      exact if_pos shorter
    next =>
    obtain ⟨goOn, budget, spent, granted, refused, counted, pays⟩ :=
      spend_counts (2 ^ 31) clause.size counts ascendsOther.length_le room
    refine .step spent ?_
    cases goOn with
    | false => exact .pure ⟨stay budget, has, counted, pays, .inl (.of_isExhausted (refused rfl))⟩
    | true =>
    have counts : budget.Counts limit slack := (granted rfl).mono (Nat.zero_le _)
    rw [if_pos rfl]
    split
    next subsumes =>
      refine subsume_finishes sound (Ne.symm different) liveOwn live
        (subset_of_check ascends.1 subsumes) fun after refines dead has => ?_
      refine onward ({ state.1 with budget := budget }, after) (.of_refines rfl refines) has counts
        pays ?_
      intro _ found liveFound
      rw [dead] at liveFound
      cases liveFound
    next literal strengthens =>
      have shortens : (liftM (Engine.strengthen other literal.complement) :
          Work Subsumer Unit).Finishes ({ state.1 with budget := budget }, state.2) _ _ :=
        strengthenOther_finishes strict sound different liveOwn live strengthens
      refine shortens.bind ?_
      rintro _ middle ⟨_, after, ended, proceeds, has, same, left⟩
      refine .step ended (onward after ((stay budget).trans proceeds) has ?_ ?_ fun _ => left)
      · rw [same]
        exact counts
      · rw [same]
        exact pays
    next unrelated =>
      exact onward ({ state.1 with budget := budget }, state.2) (stay budget) has counts
        pays fun _ => spares unrelated

omit [Realm] in
/-- The clauses of every literal are counted. -/
theorem exists_variableCounts? {index : Occurrences}
    (listed : ∀ literal ∈ literals, (∃ entry, index.entry? literal = some entry) ∧
      ∃ entry, index.entry? literal.complement = some entry) :
    ∃ counts, variableCounts? index literals = some counts ∧ counts.map Prod.fst = literals := by
  induction literals with
  | nil => exact ⟨[], rfl, rfl⟩
  | cons literal rest ih =>
    obtain ⟨⟨⟨same, isSame⟩, opposite, isOpposite⟩, others⟩ := List.forall_mem_cons.1 listed
    obtain ⟨counts, counted, names⟩ := ih others
    refine ⟨(literal, same.count + opposite.count) :: counts, ?_, by rw [List.map_cons, names]⟩
    simp [variableCounts?, Occurrences.count?, isSame, isOpposite, counted]

/-- A clause is used, and then no other clause has to do with it. -/
theorem backward_finishes (strict : ¬ Realm.Lenient) (sound : state.2.Sound)
    (live : state.2.arena.live? handle = some clause)
    (counts : state.1.budget.Counts limit slack) (room : slack + 2 ^ 31 < 2 ^ 63) :
    (backward handle).Finishes state
      (fun _ after => Tries limit slack handle clause.literals (fun _ => True) state after)
      fun cause _ => cause.isUnsat = true := by
  have entries : ∀ literal ∈ clause.literals,
      (∃ entry, state.2.index.entry? literal = some entry) ∧
        ∃ entry, state.2.index.entry? literal.complement = some entry := by
    intro literal member
    obtain ⟨positive, bound⟩ := sound.var_lt live member
    exact ⟨sound.roomy.exists_entry bound,
      sound.roomy.exists_entry (by rwa [Literal.var_complement positive])⟩
  obtain ⟨rarity, counted, names⟩ := exists_variableCounts? entries
  unfold backward
  refine .step (Run.lift_of_done (Engine.clause_of_get? (Arena.live?_eq_some.1 live).1)) ?_
  refine .step (Run.read_of_eq_some counted) ?_
  split
  next nothing =>
    have empty : clause.literals = [] := by rw [← names, eq_nil_of_leastBy nothing, List.map_nil]
    have two := (sound.wellFormed.admits _ (Arena.contents_of_live live)).two
    rw [empty] at two
    exact absurd two (by simp)
  next literal _ least =>
    have member : literal ∈ clause.literals := by
      rw [← names]
      exact List.mem_map_of_mem (mem_of_leastBy least)
    obtain ⟨⟨same, isSame⟩, opposite, isOpposite⟩ := entries literal member
    have list : state.2.index.list? literal = some same.handles := by
      rw [Occurrences.list?, isSame, Option.map_some]
    have listOpposite : state.2.index.list? literal.complement = some opposite.handles := by
      rw [Occurrences.list?, isOpposite, Option.map_some]
    refine .step (Run.lift_of_done (Engine.occurrences_of_list? list)) ?_
    refine .step (Run.lift_of_done (Engine.occurrences_of_list? listOpposite)) ?_
    refine (backwardOn_finishes strict _ sound ⟨clause, live, rfl⟩ counts room).imp ?_ fun _ _ => id
    rintro _ after ⟨proceeds, has, counts, pays, spared⟩
    refine ⟨proceeds, has, counts, pays, spared.imp_right fun spared other _ different found liveFound
      relates => ?_⟩
    -- A related clause was listed for the literal or for its complement.
    obtain ⟨old, liveOld, wears⟩ := proceeds.wears.live_old liveFound
    refine spared other (List.mem_append.2 ?_) different found liveFound relates
    refine (relates.meets member).imp (fun inside => ?_) fun inside => ?_
    · exact sound.listed.mem_of_live liveOld (wears.literals.subset inside) list
    · exact sound.listed.mem_of_live liveOld (wears.literals.subset inside) listOpposite

/-! ## Turns -/

/-- Every short clause that is no candidate has nothing to do with other clauses. -/
def Stable (engine : Engine) : Prop :=
  ∀ handle clause, engine.arena.live? handle = some clause → clause.isCandidate = false →
    ¬ engine.settings.subsumptionLength < UInt64.ofNat clause.size →
      ∀ other, other ≠ handle → Spares clause.literals engine.arena other

omit [Realm] in
/-- A clause that is no candidate is as it was. -/
theorem Stable.of_wears {engine later : Engine} (stable : Stable engine)
    (wears : engine.arena.WearsTo later.arena) (settings : later.settings = engine.settings) :
    Stable later := by
  intro handle clause live idle short other different
  obtain ⟨old, liveOld, wearsOld⟩ := wears.live_old live
  have idleOld : old.isCandidate = false := Bool.eq_false_iff.2 fun candidate => by
    rw [wearsOld.stays candidate] at idle
    cases idle
  have same : clause.literals = old.literals := wearsOld.literals_eq fun shorter => by
    rw [wearsOld.shorter shorter] at idle
    cases idle
  have short : ¬ engine.settings.subsumptionLength < UInt64.ofNat old.size := by
    rw [← settings]
    unfold Clause.size
    rw [← same]
    exact short
  rw [same]
  exact (stable handle old liveOld idleOld short other different).of_wears wears

/-- The engine is stable, unless the steps of the run are used up. -/
structure Settled (limit : UInt64) (state : Tool Subsumer × Engine) : Prop where
  same : state.1.budget.limit = limit
  stable : state.1.budget.UsedUp ∨ Stable state.2

omit [Realm] in
theorem Settled.of_wears (settled : Settled limit before)
    (pays : before.1.budget.Pays after.1.budget) (wears : before.2.arena.WearsTo after.2.arena)
    (settings : after.2.settings = before.2.settings) : Settled limit after :=
  ⟨pays.limit.trans settled.same, settled.stable.imp (fun usedUp => usedUp.of_pays pays)
    fun stable => stable.of_wears wears settings⟩

/-- As long as no literal went, every candidate is marked as waiting or about to be worked
on. -/
def Pending (total : Nat) (about : Handle → Prop) (state : Tool Subsumer × Engine) : Prop :=
  ∀ handle clause, state.2.arena.live? handle = some clause → clause.isCandidate = true →
    clause.isQueued = true ∨ about handle ∨ state.2.arena.weight < total

/-- In the midst of the work on the queue. Marks of a queue that was given up may be left,
unless it is known that all is tidy. -/
structure Stage (tidy : Prop) (known : Option Implications) (total : Nat) (about : Handle → Prop)
    (state : Tool Subsumer × Engine) : Prop where
  sound : state.2.Sound
  orderly : state.2.trail.Orderly
  knows : Knows known state
  fresh : Fresh state
  waits : tidy → Waits state
  pending : Pending total about state
  light : state.2.arena.weight ≤ total

variable {tidy : Prop} {total : Nat} {about fewer : Handle → Prop}

/-- What has been reached is kept. -/
theorem Stage.of_proceeds (stage : Stage tidy known total about before)
    (proceeds : Proceeds before after) : Stage tidy known total about after where
  sound := proceeds.sound
  orderly := proceeds.leads.orderly stage.orderly
  knows := stage.knows.of_leads stage.sound proceeds.leads proceeds.graph
  fresh := stage.fresh.of_joined proceeds.wears proceeds.joined
  waits isTidy := proceeds.waits (stage.waits isTidy)
  light := proceeds.wears.weight_le.trans stage.light
  pending handle clause live candidate := by
    obtain ⟨old, liveOld, wears⟩ := proceeds.wears.live_old live
    have found := (Arena.live?_eq_some.1 live).1
    have foundOld := (Arena.live?_eq_some.1 liveOld).1
    rcases wears.comes candidate with before | shorter
    · refine (stage.pending handle old liveOld before).imp
        (proceeds.marked handle old clause liveOld live)
        (.imp_right fun lighter => proceeds.wears.weight_le.trans_lt lighter)
    · refine .inr (.inr ((proceeds.wears.weight_lt foundOld found ?_).trans_le stage.light))
      rwa [Clause.weight_of_live live, Clause.weight_of_live liveOld]

/-- The budget is no matter here. -/
theorem Stage.of_budget (stage : Stage tidy known total about state) (budget : Budget) :
    Stage tidy known total about ({ state.1 with budget := budget }, state.2) :=
  ⟨stage.sound, stage.orderly, stage.knows.of_leads stage.sound (.refl stage.sound) rfl, stage.fresh,
    stage.waits, stage.pending, stage.light⟩

/-- A clause that is gone need not be worked on. -/
theorem Stage.of_dead (stage : Stage tidy known total (· = handle) state)
    (dead : state.2.arena.live? handle = none) : Stage tidy known total (fun _ => False) state where
  sound := stage.sound
  orderly := stage.orderly
  knows := stage.knows
  fresh := stage.fresh
  waits := stage.waits
  light := stage.light
  pending other clause live candidate := by
    refine (stage.pending other clause live candidate).imp_right (.imp_left ?_)
    rintro rfl
    exact nomatch dead.symm.trans live

/-- A clause that was worked on is no candidate any more. -/
theorem settle_returns (stage : Stage tidy known total (· = handle) state)
    (has : state.2.HasLive handle literals) :
    (liftM (settle handle) : Work Subsumer Unit).Returns state fun _ after =>
      Stage tidy known total (fun _ => False) after ∧ after.1 = state.1 ∧
        after.2.arena.weight = state.2.arena.weight ∧
        (Stable state.2 → (¬ state.2.settings.subsumptionLength < UInt64.ofNat literals.length →
          ∀ other, other ≠ handle → Spares literals state.2.arena other) → Stable after.2) := by
  obtain ⟨clause, live, rfl⟩ := has
  have found := (Arena.live?_eq_some.1 live).1
  obtain ⟨_, after, ended, soundAfter, leads, marks, remarks⟩ : (settle handle).Returns state.2 _ :=
    Engine.markClause_returns stage.sound found (fun _ => rfl) fun _ => rfl
  have weight : after.arena.weight = state.2.arena.weight := by
    rw [Arena.weight_eq_sum, Arena.weight_eq_sum, remarks.clauses.contents]
  have spares : ∀ {literals other}, Spares literals state.2.arena other →
      Spares literals after.arena other := by
    intro literals other spares copy liveCopy
    rcases marks.live_old found rfl liveCopy with ⟨rfl, _, rfl⟩ | ⟨_, liveOld⟩
    · exact spares clause live
    · exact spares copy liveOld
  refine .of_done (Run.lift_of_done ended) ⟨⟨soundAfter, leads.orderly stage.orderly,
    stage.knows.of_leads stage.sound leads rfl,
    fun other member => (stage.fresh other member).trans marks.epoch.symm,
    fun isTidy other copy liveCopy queued => ?_, fun other copy liveCopy candidate => ?_, weight.trans_le stage.light⟩, rfl, weight,
    fun stable spared other copy liveCopy idle short place different => ?_⟩
  · rcases marks.live_old found rfl liveCopy with ⟨rfl, _, rfl⟩ | ⟨_, liveOld⟩
    · exact stage.waits isTidy _ clause live queued
    · exact stage.waits isTidy other copy liveOld queued
  · rcases marks.live_old found rfl liveCopy with ⟨rfl, _, rfl⟩ | ⟨different, liveOld⟩
    · exact absurd candidate (by simp [Clause.isCandidate])
    · rw [weight]
      exact (stage.pending other copy liveOld candidate).imp_right (.imp_left different)
  · rcases marks.live_old found rfl liveCopy with ⟨rfl, _, rfl⟩ | ⟨_, liveOld⟩
    · exact spares (spared (leads.settings ▸ short) place different)
    · exact spares (stable other copy liveOld idle (leads.settings ▸ short) place different)

/-- The end of a turn, in which the clause that was worked on is no matter any more. -/
structure Turned (tidy : Prop) (limit : UInt64) (known : Option Implications) (total room : Nat)
    (after : Tool Subsumer × Engine) : Prop where
  stage : Stage tidy known total (fun _ => False) after
  counts : after.1.budget.Counts limit (2 ^ 62 + 2 ^ 31 + 2 ^ 31)
  fits : after.1.own.queue.length + after.2.arena.weight ≤ room
  settled : tidy → Settled limit after

/-- A turn ends with the mark of the clause that was worked on. -/
theorem settle_turned {room : Nat} (stage : Stage tidy known total (· = handle) state)
    (has : state.2.HasLive handle literals)
    (counts : state.1.budget.Counts limit (2 ^ 62 + 2 ^ 31 + 2 ^ 31))
    (fits : state.1.own.queue.length + state.2.arena.weight ≤ room)
    (settled : tidy → Settled limit state)
    (spared : state.1.budget.UsedUp ∨
      (¬ state.2.settings.subsumptionLength < UInt64.ofNat literals.length →
        ∀ other, other ≠ handle → Spares literals state.2.arena other)) :
    (liftM (settle handle) : Work Subsumer Unit).Returns state fun _ after =>
      Turned tidy limit known total room after := by
  refine (settle_returns stage has).imp ?_
  rintro _ ⟨_, last⟩ ⟨stageLast, rfl, weight, settles⟩
  refine ⟨stageLast, counts, ?_, fun isTidy => ?_⟩
  · change state.1.own.queue.length + last.arena.weight ≤ room
    rw [weight]
    exact fits
  · obtain ⟨same, usedUp | stable⟩ := settled isTidy
    · exact ⟨same, .inl usedUp⟩
    · exact ⟨same, spared.imp_right fun spared => settles stable spared⟩

/-- A turn ends with the root literals. -/
theorem Turned.propagate {room : Nat} (strict : ¬ Realm.Lenient)
    (turned : Turned tidy limit known total room state) :
    (liftM Engine.propagateUnits : Work Subsumer Unit).Finishes state
      (fun _ after => Turned tidy limit known total room after) fun cause _ => cause.isUnsat = true := by
  have propagates : (liftM Engine.propagateUnits : Work Subsumer Unit).Finishes state _ _ :=
    .lift (Engine.propagateUnits_finishes turned.stage.sound strict turned.stage.orderly)
  refine propagates.imp ?_ fun _ _ => id
  rintro _ ⟨_, after⟩ ⟨rfl, refines⟩
  have proceeds : Proceeds state (state.1, after) := .of_refines rfl refines
  exact ⟨turned.stage.of_proceeds proceeds, turned.counts, proceeds.fits.trans turned.fits,
    fun isTidy => (turned.settled isTidy).of_wears (.refl _) proceeds.wears
      proceeds.leads.settings⟩

/-- One clause is worked on. -/
theorem simplifyClause_finishes (strict : ¬ Realm.Lenient)
    (stage : Stage tidy known total (· = handle) state) (live : state.2.arena.live? handle = some clause)
    (counts : state.1.budget.Counts limit 0) (settled : tidy → Settled limit state) :
    (simplifyClause handle).Finishes state
      (fun _ after => Turned tidy limit known total
        (state.1.own.queue.length + state.2.arena.weight) after)
      fun cause _ => cause.isUnsat = true := by
  -- Once the clause is gone, nothing is left to do with it.
  have gone : ∀ middle : Tool Subsumer × Engine, Proceeds state middle →
      middle.1.budget.Counts limit (2 ^ 62 + 2 ^ 31) → state.1.budget.Pays middle.1.budget →
      middle.2.arena.live? handle = none →
      Turned tidy limit known total (state.1.own.queue.length + state.2.arena.weight) middle :=
    fun middle proceeds counts pays dead => ⟨(stage.of_proceeds proceeds).of_dead dead,
      counts.mono (by omega), proceeds.fits, fun isTidy => (settled isTidy).of_wears pays
        proceeds.wears proceeds.leads.settings⟩
  unfold simplifyClause
  refine (hidden_finishes strict stage.sound stage.knows live counts).bind ?_
  rintro removed first ⟨searches, dead⟩
  have proceeds : Proceeds state first := .of_refines searches.own searches.refines
  split
  next isTrue =>
    exact (gone first proceeds (searches.counts.mono (by omega)) searches.pays
      (dead isTrue)).propagate strict
  next =>
  obtain ⟨_, found, _⟩ := proceeds.wears.new (Arena.live?_eq_some.1 live).1
  refine (forward_finishes strict proceeds.sound found searches.counts (by omega)).bind ?_
  intro _ second searchesSecond
  have pays := searches.pays.trans searchesSecond.pays
  have proceeds : Proceeds state second :=
    proceeds.trans (.of_refines searchesSecond.own searchesSecond.refines)
  obtain ⟨left, foundLeft, _⟩ := proceeds.wears.new (Arena.live?_eq_some.1 live).1
  refine .step (Run.lift_of_done (Engine.clause_of_get? foundLeft)) ?_
  split
  next isDead =>
    have absent : second.2.arena.live? handle = none := by simp [Arena.live?, foundLeft, isDead]
    exact (gone second proceeds searchesSecond.counts pays absent).propagate strict
  next alive =>
  have liveLeft : second.2.arena.live? handle = some left :=
    Arena.live?_eq_some.2 ⟨foundLeft, by simpa using alive⟩
  refine (backward_finishes strict proceeds.sound liveLeft searchesSecond.counts (by omega)).bind ?_
  intro _ third tries
  have proceeds : Proceeds state third := proceeds.trans tries.proceeds
  obtain ⟨_, last, ended, turned⟩ := settle_turned (stage.of_proceeds proceeds) tries.has
    tries.counts proceeds.fits (fun isTidy => (settled isTidy).of_wears (pays.trans tries.pays)
      proceeds.wears proceeds.leads.settings)
    (tries.spared.imp_right fun spared _ other => spared other trivial)
  exact .step ended (turned.propagate strict)

/-! ## The queue is worked through -/

/-- Clauses are not marked as waiting any more, and nothing else happened. -/
structure Unmarks (handles : List Handle) (before after : Tool Subsumer × Engine) : Prop where
  sound : after.2.Sound
  leads : before.2.Leads .equivalence after.2
  wears : before.2.arena.WearsTo after.2.arena
  weight : after.2.arena.weight = before.2.arena.weight
  has : ∀ place literals, before.2.HasLive place literals → after.2.HasLive place literals
  tool : after.1 = before.1
  unmarked : ∀ other clause, after.2.arena.live? other = some clause → clause.isQueued = true →
    other ∉ handles ∧ ∃ old, before.2.arena.live? other = some old ∧ old.isQueued = true
  stays : ∀ other old clause, before.2.arena.live? other = some old →
    after.2.arena.live? other = some clause → other ∉ handles → old.isQueued = true →
      clause.isQueued = true

/-- A handle without a live clause can be passed over. -/
theorem Unmarks.of_dead (sound : state.2.Sound) (dead : state.2.arena.live? handle = none) :
    Unmarks [handle] state state := by
  refine ⟨sound, .refl sound, .refl _, rfl, fun _ _ => id, rfl,
    fun other clause live queued => ⟨fun member => ?_, clause, live, queued⟩,
    fun other old clause live same _ => StayMarked.refl _ other old clause live same⟩
  obtain rfl := List.mem_singleton.1 member
  exact nomatch dead.symm.trans live

/-- What is dead is so after the marks went. -/
theorem Unmarks.live?_eq_none {handles : List Handle} (unmarks : Unmarks handles before after)
    (found : before.2.arena.get? handle = some clause) (isDead : clause.isDead = true) :
    after.2.arena.live? handle = none := by
  refine Option.eq_none_iff_forall_ne_some.2 fun copy live => ?_
  obtain ⟨old, liveOld, _⟩ := unmarks.wears.live_old live
  obtain ⟨foundOld, alive⟩ := Arena.live?_eq_some.1 liveOld
  obtain rfl := Option.some.inj (foundOld.symm.trans found)
  rw [isDead] at alive
  cases alive

/-- The mark of a clause is taken off. -/
theorem unqueue_returns (sound : state.2.Sound) :
    (liftM (unqueue handle) : Work Subsumer Unit).Returns state fun _ after =>
      Unmarks [handle] state after := by
  cases found : state.2.arena.get? handle with
  | none =>
    have ended : unqueue handle state.2 = .done () state.2 :=
      Engine.markClause_of_none (by rw [Arena.mark, found])
    exact .of_done (Run.lift_of_done ended) (.of_dead sound (by simp [Arena.live?, found]))
  | some clause =>
    obtain ⟨_, after, ended, soundAfter, leads, marks, remarks⟩ : (unqueue handle).Returns state.2 _ :=
      Engine.markClause_returns sound found (fun _ => rfl) fun _ => rfl
    refine .of_done (Run.lift_of_done ended) ⟨soundAfter, leads,
      marks.wearsTo found (.of_flags rfl id rfl), ?_,
        fun _ _ has => has.of_sameClauses remarks.clauses, rfl, fun other copy live queued => ?_,
        fun other old copy liveOld live notHere queued => ?_⟩
    · rw [Arena.weight_eq_sum, Arena.weight_eq_sum, remarks.clauses.contents]
    · rcases marks.live_old found rfl live with ⟨rfl, _, rfl⟩ | ⟨different, liveOld⟩
      · exact absurd queued (by simp [Clause.isQueued])
      · exact ⟨by simpa using different, copy, liveOld, queued⟩
    · rcases marks.live_old found rfl live with ⟨rfl, _⟩ | ⟨_, same⟩
      · exact absurd List.mem_cons_self notHere
      · rwa [← Option.some.inj (liveOld.symm.trans same)]

/-- The marks of clauses are taken off. -/
theorem unqueueAll_returns (handles : List Handle) (sound : state.2.Sound) :
    (handles.forM fun handle => (unqueue handle : Work Subsumer Unit)).Returns state fun _ after =>
      Unmarks handles state after := by
  induction handles generalizing state with
  | nil =>
    exact .pure ⟨sound, .refl sound, .refl _, rfl, fun _ _ => id, rfl, fun other clause live queued =>
      ⟨List.not_mem_nil, clause, live, queued⟩,
      fun other old clause live same _ => StayMarked.refl _ other old clause live same⟩
  | cons handle rest ih =>
    refine (unqueue_returns sound).bind fun _ middle first => (ih first.sound).imp fun _ after others => ?_
    refine ⟨others.sound, first.leads.trans others.leads, first.wears.trans others.wears,
      others.weight.trans first.weight, fun place literals has =>
      others.has place literals (first.has place literals has), others.tool.trans first.tool, fun other clause live queued => ?_,
      fun other old clause liveOld live notHere queued => ?_⟩
    · obtain ⟨notLater, between, liveBetween, queuedBetween⟩ := others.unmarked other clause live queued
      obtain ⟨notFirst, old⟩ := first.unmarked other between liveBetween queuedBetween
      exact ⟨fun member => (List.mem_cons.1 member).elim (fun same => notFirst (by simp [same])) notLater,
        old⟩
    · obtain ⟨between, liveBetween, _⟩ := others.wears.live_old live
      have notFirst : other ∉ [handle] := fun member =>
        notHere (List.mem_cons.2 (.inl (List.mem_singleton.1 member)))
      exact others.stays other between clause liveBetween live
        (fun member => notHere (List.mem_cons_of_mem _ member))
        (first.stays other old between liveOld liveBetween notFirst queued)

/-- The first clause of the queue is taken out. -/
theorem Stage.pop {rest : List Handle} (stage : Stage tidy known total (fun _ => False) state)
    (queue : state.1.own.queue = handle :: rest)
    (unmarks : Unmarks [handle] ({ state.1 with own := { state.1.own with queue := rest } }, state.2)
      after) : Stage tidy known total (· = handle) after where
  sound := unmarks.sound
  orderly := unmarks.leads.orderly stage.orderly
  knows := stage.knows.of_leads stage.sound unmarks.leads (by rw [unmarks.tool])
  light := unmarks.weight.trans_le stage.light
  fresh other member := by
    rw [unmarks.tool] at member
    have inQueue : other ∈ state.1.own.queue := by
      rw [queue]
      exact List.mem_cons_of_mem _ member
    exact (stage.fresh other inQueue).trans unmarks.wears.epoch.symm
  waits isTidy other clause live queued := by
    obtain ⟨different, old, liveOld, queuedOld⟩ := unmarks.unmarked other clause live queued
    have inQueue := stage.waits isTidy other old liveOld queuedOld
    rw [queue] at inQueue
    rw [unmarks.tool]
    exact (List.mem_cons.1 inQueue).resolve_left fun same => different (by simp [same])
  pending other clause live candidate := by
    obtain ⟨old, liveOld, before⟩ := candidate_old unmarks.wears unmarks.weight live candidate
    rw [unmarks.weight]
    rcases stage.pending other old liveOld before with queued | none_ | lighter
    · by_cases same : other = handle
      · exact .inr (.inl same)
      · exact .inl (unmarks.stays other old clause liveOld live (by simpa using same) queued)
    · exact none_.elim
    · exact .inr (.inr lighter)

/-- Between two passes over the queue. -/
structure Round (tidy : Prop) (limit : UInt64) (known : Option Implications)
    (state : Tool Subsumer × Engine) : Prop where
  sound : state.2.Sound
  orderly : state.2.trail.Orderly
  knows : Knows known state
  fresh : Fresh state
  waits : tidy → Waits state
  counts : state.1.budget.Counts limit (2 ^ 62 + 2 ^ 33)
  settled : tidy → Settled limit state

/-- The queue is empty, or the steps are used up. -/
structure Drained (tidy : Prop) (limit : UInt64) (known : Option Implications) (total : Nat)
    (after : Tool Subsumer × Engine) : Prop extends Round tidy limit known after where
  light : after.2.arena.weight ≤ total
  worked : after.1.budget.isExhausted = true ∨
    after.1.own.queue = [] ∧ Pending total (fun _ => False) after

/-- In the end the queue is drained. -/
theorem Stage.drained (stage : Stage tidy known total about state)
    (counts : state.1.budget.Counts limit (2 ^ 62 + 2 ^ 33)) (settled : tidy → Settled limit state)
    (worked : state.1.budget.isExhausted = true ∨
      state.1.own.queue = [] ∧ Pending total (fun _ => False) state) :
    Drained tidy limit known total state where
  sound := stage.sound
  orderly := stage.orderly
  knows := stage.knows
  fresh := stage.fresh
  waits := stage.waits
  counts := counts
  settled := settled
  light := stage.light
  worked := worked

/-- Every turn takes a clause from the queue, and a clause comes back only after it lost
a literal. -/
theorem drainLoop_finishes (strict : ¬ Realm.Lenient) (fuel : Nat)
    (stage : Stage tidy known total (fun _ => False) state)
    (counts : state.1.budget.Counts limit (2 ^ 62 + 2 ^ 31 + 2 ^ 31))
    (settled : tidy → Settled limit state)
    (enough : state.1.own.queue.length + state.2.arena.weight < fuel) :
    (drainLoop fuel).Finishes state (fun _ after => Drained tidy limit known total after)
      fun cause _ => cause.isUnsat = true := by
  induction fuel generalizing state with
  | zero => exact absurd enough (Nat.not_lt_zero _)
  | succ fuel ih =>
    unfold drainLoop
    refine .step (Work.own_apply state.1 state.2) ?_
    split
    next empty =>
      exact .pure (stage.drained (counts.mono (by omega)) settled (.inr ⟨empty, stage.pending⟩))
    next handle rest queue =>
    have length : state.1.own.queue.length = rest.length + 1 := by rw [queue, List.length_cons]
    let popped : Tool Subsumer × Engine :=
      ({ state.1 with own := { state.1.own with queue := rest } }, state.2)
    -- Without its first clause the queue is shorter.
    have onward : ∀ engine : Engine, Unmarks [handle] popped (popped.1, engine) →
        engine.arena.live? handle = none →
        (drainLoop fuel).Finishes (popped.1, engine) (fun _ after => Drained tidy limit known total after)
          fun cause _ => cause.isUnsat = true := by
      intro engine unmarks dead
      refine ih ((stage.pop queue unmarks).of_dead dead) counts (fun isTidy => ?_) ?_
      · exact (settled isTidy).of_wears (.refl _) unmarks.wears unmarks.leads.settings
      · have weight : engine.arena.weight = state.2.arena.weight := unmarks.weight
        change rest.length + engine.arena.weight < fuel
        omega
    refine .step (Work.modifyOwn_apply _ state.1 state.2) (.step rfl ?_)
    split
    next absent =>
      have dead : state.2.arena.live? handle = none := by
        unfold Arena.live?
        rw [show state.2.arena.get? handle = none from absent]
        rfl
      exact onward state.2 (.of_dead stage.sound dead) dead
    next clause found =>
    obtain ⟨_, ⟨tool, middle⟩, ended, unmarks⟩ :
        (liftM (unqueue handle) : Work Subsumer Unit).Returns popped _ := unqueue_returns stage.sound
    obtain rfl : tool = popped.1 := unmarks.tool
    refine .step ended ?_
    split
    next isDead =>
      exact onward middle unmarks (unmarks.live?_eq_none found isDead)
    next alive =>
    have live := Arena.live?_of_alive found alive
    obtain ⟨copy, liveCopy, literals⟩ := unmarks.has handle clause.literals ⟨clause, live, rfl⟩
    have stagePopped := stage.pop queue unmarks
    obtain ⟨goOn, budget, spent, granted, refused, counted, pays⟩ :
        ∃ goOn budget, (Work.spend clause.size : Work Subsumer Bool) (popped.1, middle) = _ ∧ _ :=
      spend_counts (2 ^ 31) clause.size counts (stage.sound.ascends live).length_le (by omega)
    refine .step spent ?_
    cases goOn with
    | false =>
      exact .pure ((stagePopped.of_budget budget).drained (counted.mono (by omega))
        (fun isTidy => ⟨pays.limit.trans (settled isTidy).same,
          .inl (.of_isExhausted (refused rfl))⟩) (.inl (refused rfl)))
    | true =>
    have settledNow : tidy → Settled limit ({ popped.1 with budget := budget }, middle) := fun isTidy =>
      (settled isTidy).of_wears pays unmarks.wears unmarks.leads.settings
    have next : ∀ after, Turned tidy limit known total (rest.length + middle.arena.weight) after →
        (drainLoop fuel).Finishes after (fun _ after => Drained tidy limit known total after)
          fun cause _ => cause.isUnsat = true := by
      intro after turned
      have weight : middle.arena.weight = state.2.arena.weight := unmarks.weight
      exact ih turned.stage turned.counts turned.settled (turned.fits.trans_lt (by omega))
    rw [if_pos rfl]
    refine .step rfl ?_
    split
    next long =>
      obtain ⟨_, last, ended, turned⟩ := settle_turned (stagePopped.of_budget budget)
        ⟨copy, liveCopy, rfl⟩ ((granted rfl).mono (by omega)) le_rfl settledNow
        (.inr fun short => absurd (literals ▸ long) short)
      exact .step ended (next last turned)
    next =>
      refine (simplifyClause_finishes strict (stagePopped.of_budget budget) liveCopy (granted rfl)
        settledNow).bind ?_
      exact fun _ after turned => next after turned

/-- The queue is worked through, and those that are left give up their places. -/
theorem drain_finishes (strict : ¬ Realm.Lenient)
    (stage : Stage tidy known total (fun _ => False) state)
    (counts : state.1.budget.Counts limit (2 ^ 62 + 2 ^ 31 + 2 ^ 31))
    (settled : tidy → Settled limit state) :
    drain.Finishes state
      (fun _ after => Drained tidy limit known total after ∧ after.1.own.queue = [])
      fun cause _ => cause.isUnsat = true := by
  unfold drain
  refine .step (Work.own_apply state.1 state.2) (.step rfl ?_)
  refine (drainLoop_finishes strict _ stage counts settled ?_).bind ?_
  · rw [Engine.liveLiterals_eq_weight]
    exact Nat.lt_succ_self _
  rintro _ ⟨tool, middle⟩ drained
  refine .step (Work.own_apply tool middle) ?_
  obtain ⟨_, ⟨later, after⟩, ended, unmarks⟩ :
      (tool.own.queue.forM fun handle => (unqueue handle : Work Subsumer Unit)).Returns
        (tool, middle) _ := unqueueAll_returns _ drained.sound
  obtain rfl : tool = later := unmarks.tool.symm
  refine .step ended (.of_returns (.of_done (Work.modifyOwn_apply _ tool after) ⟨⟨⟨unmarks.sound,
    unmarks.leads.orderly drained.orderly, drained.knows.of_leads drained.sound unmarks.leads rfl,
    nofun, fun isTidy handle clause live queued => ?_, drained.counts, fun isTidy => ?_⟩,
    unmarks.weight.trans_le drained.light, drained.worked.imp_right fun ⟨empty, pending⟩ =>
      ⟨rfl, fun handle clause live candidate => ?_⟩⟩, rfl⟩))
  · obtain ⟨notLeft, old, liveOld, queuedOld⟩ := unmarks.unmarked handle clause live queued
    exact absurd (drained.waits isTidy handle old liveOld queuedOld) notLeft
  · exact (drained.settled isTidy).of_wears (.refl _) unmarks.wears unmarks.leads.settings
  · obtain ⟨old, liveOld, before⟩ := candidate_old unmarks.wears unmarks.weight live candidate
    refine (pending handle old liveOld before).imp
      (unmarks.stays handle old clause liveOld live ?_) (.imp_right unmarks.weight.trans_lt)
    rw [show tool.own.queue = [] from empty]
    exact List.not_mem_nil

/-! ## Passes over the queue -/

/-- No live clause is a candidate. -/
def Idle (engine : Engine) : Prop :=
  ∀ handle clause, engine.arena.live? handle = some clause → clause.isCandidate = false

omit [Realm] in
/-- The candidates are the live clauses that are marked. -/
theorem mem_candidates {arena : Arena} (space : arena.slots.size ≤ UInt32.size) :
    handle ∈ candidates arena ↔
      ∃ clause, arena.live? handle = some clause ∧ clause.isCandidate = true := by
  have mem_handles : handle ∈ arena.handles ↔ ∃ clause, arena.live? handle = some clause := by
    unfold Arena.handles
    simp only [List.mem_filterMap, Prod.exists, List.mem_zipIdx_iff_getElem?, Array.getElem?_toList]
    constructor
    · rintro ⟨clause, slot, found, same⟩
      cases dead : clause.isDead with
      | true => simp [dead] at same
      | false =>
        simp only [dead, Bool.false_eq_true, if_false, Option.some.injEq] at same
        exact ⟨clause, same ▸ Arena.live?_handleAt space found dead⟩
    · rintro ⟨clause, live⟩
      obtain ⟨found, alive⟩ := Arena.live?_eq_some.1 live
      obtain ⟨current, inSlot⟩ := Arena.get?_eq_some.1 found
      refine ⟨clause, handle.index, inSlot, ?_⟩
      simp [alive, ← current, Handle.index]
  unfold candidates
  simp only [List.mem_map, mem_sortBy, List.mem_filterMap, Prod.exists, exists_and_right,
    exists_eq_right]
  constructor
  · rintro ⟨size, place, listed, found⟩
    split at found
    next clause isClause =>
      split at found
      next marked =>
        obtain ⟨rfl, _⟩ : place = handle ∧ clause.size = size := by simpa using found
        obtain ⟨other, live⟩ := mem_handles.1 listed
        obtain rfl := Option.some.inj ((Arena.live?_eq_some.1 live).1.symm.trans isClause)
        exact ⟨other, live, marked⟩
      next => cases found
    next => cases found
  · rintro ⟨clause, live, marked⟩
    refine ⟨clause.size, handle, mem_handles.2 ⟨clause, live⟩, ?_⟩
    rw [(Arena.live?_eq_some.1 live).1]
    exact if_pos marked

/-- All candidates are marked after they were gathered. -/
theorem gather_returns (sound : state.2.Sound) : gather.Returns state fun _ after =>
    Joins state after ∧ ∀ handle clause, after.2.arena.live? handle = some clause →
      clause.isCandidate = true → clause.isQueued = true := by
  have enqueueAll : ∀ (handles : List Handle) (state : Tool Subsumer × Engine), state.2.Sound →
      (handles.forM enqueue).Returns state fun _ after => Joins state after ∧
        ∀ handle ∈ handles, ∀ clause, after.2.arena.live? handle = some clause →
          clause.isQueued = true := by
    intro handles
    induction handles with
    | nil => exact fun state sound => .pure ⟨.refl sound, by simp⟩
    | cons handle rest ih =>
      intro state sound
      refine (enqueue_returns sound).bind fun _ middle ⟨joins, _, marked⟩ =>
        (ih middle joins.sound).imp fun _ after ⟨later, others⟩ =>
          ⟨joins.trans later, fun other member clause live => ?_⟩
      rcases List.mem_cons.1 member with rfl | member
      · obtain ⟨copy, liveCopy, _⟩ := later.wears.live_old live
        exact later.marked other copy clause liveCopy live (marked copy liveCopy)
      · exact others other member clause live
  unfold gather
  refine .step rfl ((enqueueAll _ state sound).imp fun _ after ⟨joins, marked⟩ => ⟨joins,
    fun handle clause live candidate => ?_⟩)
  obtain ⟨old, liveOld, before⟩ := candidate_old joins.wears joins.weight live candidate
  exact marked handle ((mem_candidates sound.space.le).2 ⟨old, liveOld, before⟩) clause live

/-- The queue is empty, and every candidate is marked as if it were in it. -/
def Quiet (state : Tool Subsumer × Engine) : Prop :=
  state.1.own.queue = [] ∧ ∀ handle clause, state.2.arena.live? handle = some clause →
    clause.isCandidate = true → clause.isQueued = true

omit [Realm] in
theorem Quiet.of_idle (empty : state.1.own.queue = []) (idle : Idle state.2) : Quiet state :=
  ⟨empty, fun handle clause live candidate => by
    rw [idle handle clause live] at candidate
    cases candidate⟩

omit [Realm] in
/-- Where no mark is left from a queue that was given up, a quiet engine has no candidates. -/
theorem Quiet.idle (quiet : Quiet state) (waits : Waits state) : Idle state.2 := by
  intro handle clause live
  refine Bool.eq_false_iff.2 fun candidate => ?_
  have member := waits handle clause live (quiet.2 handle clause live candidate)
  rw [quiet.1] at member
  exact absurd member List.not_mem_nil

omit [Realm] in
/-- Where all candidates are marked none are gathered. -/
theorem gather_of_quiet (space : state.2.arena.slots.size ≤ UInt32.size) (quiet : Quiet state) :
    gather state = .done () state := by
  have passes : ∀ handles : List Handle, (∀ handle ∈ handles, ∃ clause,
      state.2.arena.live? handle = some clause ∧ clause.isQueued = true) →
      handles.forM enqueue state = .done () state := by
    intro handles marked
    induction handles with
    | nil => rfl
    | cons handle rest ih =>
      obtain ⟨⟨clause, live, queued⟩, others⟩ := List.forall_mem_cons.1 marked
      have looked : (liftM (Engine.look fun engine => engine.arena.live? handle) :
          Work Subsumer (Option Clause)) state = .done (some clause) state := by
        rw [← live]
        rfl
      have passed : enqueue handle state = .done () state := by
        unfold enqueue
        rw [Run.bind_of_done looked]
        exact congrFun (if_pos queued) state
      change (enqueue handle >>= fun _ => rest.forM enqueue) state = _
      rw [Run.bind_of_done passed]
      exact ih others
  unfold gather
  refine Run.bind_of_done rfl |>.trans (passes _ fun handle member => ?_)
  obtain ⟨clause, live, candidate⟩ := (mem_candidates space).1 member
  exact ⟨clause, live, quiet.2 handle clause live candidate⟩

omit [Realm] in
/-- Where there are no candidates to gather there is nothing to work on. -/
theorem exhaust_of_quiet (fuel : Nat) (space : state.2.arena.slots.size ≤ UInt32.size)
    (quiet : Quiet state) : exhaust (fuel + 1) state = .done () state := by
  unfold exhaust
  rw [Run.bind_of_done (gather_of_quiet space quiet),
    Run.bind_of_done (Work.own_apply state.1 state.2), if_pos (by rw [quiet.1]; rfl)]
  rfl

/-- A pass finds all candidates, and one that goes to its end leaves fewer literals or no
candidate. -/
theorem exhaust_finishes (strict : ¬ Realm.Lenient) (fuel : Nat)
    (round : Round tidy limit known state)
    (enough : 0 < fuel ∧ (state.2.arena.weight + 2 ≤ fuel ∨
      state.1.budget.isExhausted = true ∨ Quiet state)) :
    (exhaust fuel).Finishes state
      (fun _ after => Round tidy limit known after ∧
        (after.1.budget.isExhausted = true ∨ Quiet after))
      fun cause _ => cause.isUnsat = true := by
  induction fuel generalizing state with
  | zero => exact absurd enough.1 (Nat.lt_irrefl 0)
  | succ fuel ih =>
    by_cases quiet : Quiet state
    · exact .of_returns (.of_done (exhaust_of_quiet fuel round.sound.space.le quiet)
        ⟨round, .inr quiet⟩)
    unfold exhaust
    obtain ⟨_, middle, ended, joins, marked⟩ := gather_returns round.sound
    have settled : tidy → Settled limit middle := fun isTidy =>
      (round.settled isTidy).of_wears (joins.budget ▸ .refl _) joins.wears joins.leads.settings
    have roundMiddle : Round tidy limit known middle := ⟨joins.sound,
      joins.leads.orderly round.orderly, round.knows.of_leads round.sound joins.leads joins.graph,
      round.fresh.of_joined joins.wears joins.joined, fun isTidy => joins.waits (round.waits isTidy),
      joins.budget ▸ round.counts, settled⟩
    refine .step ended (.step (Work.own_apply middle.1 middle.2) ?_)
    split
    next isEmpty => exact .pure ⟨roundMiddle, .inr ⟨by simpa using isEmpty, marked⟩⟩
    next =>
    refine .step rfl ?_
    split
    next exhausted => exact .pure ⟨roundMiddle, .inl exhausted⟩
    next left =>
    have left : middle.1.budget.isExhausted = false := by simpa using left
    have room : state.2.arena.weight + 2 ≤ fuel + 1 := by
      refine enough.2.resolve_right (not_or_intro ?_ quiet)
      rw [← joins.budget, left]
      exact Bool.false_ne_true
    have stage : Stage tidy known middle.2.arena.weight (fun _ => False) middle :=
      ⟨joins.sound, roundMiddle.orderly, roundMiddle.knows, roundMiddle.fresh, roundMiddle.waits,
        fun handle clause live candidate => .inl (marked handle clause live candidate), le_rfl⟩
    have counts := (roundMiddle.counts.of_left (by omega) left).mono
      (Nat.zero_le (2 ^ 62 + 2 ^ 31 + 2 ^ 31))
    refine (drain_finishes strict stage counts settled).bind ?_
    rintro _ after ⟨drained, nothing⟩
    refine ih drained.toRound ⟨by omega, ?_⟩
    have light := drained.light
    have weight := joins.weight
    rcases drained.worked with exhausted | ⟨_, pending⟩
    · exact .inr (.inl exhausted)
    by_cases lighter : after.2.arena.weight < middle.2.arena.weight
    · left
      omega
    · refine .inr (.inr ⟨nothing, fun handle clause live candidate => ?_⟩)
      exact (pending handle clause live candidate).resolve_right
        (not_or_intro id lighter)

/-- All clauses are worked on until nothing changes any more. -/
theorem run_finishes (strict : ¬ Realm.Lenient) (sound : state.2.Sound)
    (orderly : state.2.trail.Orderly) (uses : Uses none state) (fresh : Fresh state)
    (waits : tidy → Waits state) (counts : state.1.budget.Counts limit (2 ^ 62 + 2 ^ 33))
    (same : tidy → state.1.budget.limit = limit) (marked : tidy → ∀ handle clause, state.2.arena.live? handle = some clause →
      clause.isCandidate = true) :
    run.Finishes state
      (fun _ after => (∃ known, Round tidy limit known after) ∧
        (after.1.budget.isExhausted = true ∨ Quiet after))
      fun cause _ => cause.isUnsat = true := by
  have propagates : (liftM Engine.propagateUnits : Work Subsumer Unit).Finishes state _ _ :=
    .lift (Engine.propagateUnits_finishes sound strict orderly)
  unfold run
  refine propagates.bind ?_
  rintro _ ⟨_, middle⟩ ⟨rfl, refines⟩
  have proceeds : Proceeds state (state.1, middle) := .of_refines rfl refines
  -- As long as all clauses are candidates nothing is said of any.
  have stable : tidy → Stable middle := by
    intro isTidy handle clause live idle
    obtain ⟨old, liveOld, wears⟩ := refines.wears.arena.live_old live
    rw [wears.stays (marked isTidy handle old liveOld)] at idle
    cases idle
  have finish : ∀ (known : Option Implications) (next : Tool Subsumer × Engine),
      Round tidy limit known next → (do
        let literals ← Engine.look Engine.liveLiterals
        exhaust (literals + 3) : Work Subsumer Unit).Finishes next
        (fun _ after => (∃ known, Round tidy limit known after) ∧
          (after.1.budget.isExhausted = true ∨ Quiet after))
        fun cause _ => cause.isUnsat = true := by
    intro known next round
    refine .step rfl ((exhaust_finishes strict _ round ⟨Nat.succ_pos _, .inl ?_⟩).imp
      (fun _ after ⟨round, ended⟩ => ⟨⟨known, round⟩, ended⟩) fun _ _ => id)
    rw [Engine.liveLiterals_eq_weight]
    omega
  refine .step rfl ?_
  split
  next =>
    exact finish none (state.1, middle) ⟨refines.sound, refines.leads.orderly orderly,
      ⟨⟨uses, nofun, nofun⟩, nofun⟩, fresh.of_joined proceeds.wears proceeds.joined,
      fun isTidy => proceeds.waits (waits isTidy), counts, fun isTidy =>
        ⟨same isTidy, .inr (stable isTidy)⟩⟩
  next =>
    obtain ⟨graph, after, ended, full⟩ := Engine.implications_returns refines.sound
    have works : Works .equivalence Engine.implications middle _ := Engine.works_implications
    obtain ⟨leads, random, reflects, rests⟩ := (works refines.sound).done_of_eq ended
    have arena : after.arena = middle.arena := by rw [random]
    have tracked : middle.WearsTo after :=
      Tolerant.aside arena (by rw [random]) (by rw [random])
    refine .step (Run.lift_of_done ended) (.step (Work.modifyOwn_apply _ state.1 after) ?_)
    refine finish (some graph) ({ state.1 with own := { state.1.own with graph := some graph } }, after)
      ⟨leads.sound refines.sound, leads.orderly (refines.leads.orderly orderly), ⟨⟨rfl, ?_, ?_⟩, ?_⟩,
        fun handle member => ?_, fun isTidy handle clause live => ?_, counts,
        fun isTidy => ⟨same isTidy, .inr ((stable isTidy).of_wears tracked.arena leads.settings)⟩⟩
    · rintro _ ⟨⟩
      exact reflects
    · rintro _ ⟨⟩
      exact rests
    · rintro _ ⟨⟩
      exact full
    · rw [show after.arena = middle.arena from arena]
      exact fresh.of_joined proceeds.wears proceeds.joined handle member
    · rw [show after.arena = middle.arena from arena] at live
      exact proceeds.waits (waits isTidy) handle clause live

end Subsumer

/-! ## The fixed point -/

namespace Engine

/-- Where no root literal is left to apply nothing is applied. -/
theorem propagateUnits_of_current {engine : Engine} (current : engine.Current) :
    propagateUnits engine = .done () engine := by
  have none_ : engine.trail.literals[engine.applied]? = none := Array.getElem?_eq_none current
  simp [propagateUnits, applyUnits, look, Run.bind_apply, none_]

end Engine

namespace Subsumer

variable {tool : Tool Subsumer} {engine : Engine}

/-- Where no root literal is left to apply and no clause is a candidate, nothing happens. -/
theorem process_of_idle [Realm] (sound : engine.Sound) (current : engine.Current)
    (idle : Idle engine) (empty : tool.own.queue = []) :
    process.Returns (tool, engine) fun _ after =>
      after.2.arena = engine.arena ∧ after.2.changes = engine.changes := by
  let again (after : Tool Subsumer × Engine) : Prop :=
    after.2.arena = engine.arena ∧ after.2.changes = engine.changes
  have exhausts : ∀ (later : Tool Subsumer) (random : Random), later.own.queue = [] → (do
      let literals ← Engine.look Engine.liveLiterals
      exhaust (literals + 3) : Work Subsumer Unit).Finishes (later, { engine with random := random })
      (fun _ after => again after) fun _ _ => False := by
    intro later random nothing
    refine .step rfl (.of_returns (.of_done (exhaust_of_quiet _ ?_ (.of_idle nothing ?_)) ⟨rfl, rfl⟩))
    · exact sound.space.le
    · exact idle
  have runs : ∀ later : Tool Subsumer, later.own.queue = [] →
      run.Finishes (later, engine) (fun _ after => again after) fun _ _ => False := by
    intro later nothing
    unfold run
    refine .step (Run.lift_of_done (Engine.propagateUnits_of_current current)) (.step rfl ?_)
    split
    next => exact exhausts later engine.random nothing
    next =>
      obtain ⟨graph, after, ended, _⟩ := Engine.implications_returns sound
      have random : after = { engine with random := after.random } :=
        (Engine.implications_ends.done_of_eq ended).1
      rw [random] at ended
      exact .step (Run.lift_of_done ended) (.step rfl (exhausts _ after.random nothing))
  refine .step rfl (.step rfl (.step rfl ?_))
  refine .bind (Run.Finishes.attempt (.step rfl (runs _ empty))) fun result after reached => ?_
  match result, reached with
  | .ok (), reached => exact .step rfl (.step rfl (.step rfl (.of_done rfl reached)))

/-- Subsumption came to its end. -/
structure Ended [Realm] (before : Engine) (tool : Tool Subsumer) (after : Engine) : Prop where
  sound : after.Sound
  current : after.Current
  settings : after.settings = before.settings
  worked : tool.budget.isExhausted = true ∨ tool.own.queue = [] ∧ Idle after
  counts : tool.budget.Counts (before.stepLimit before.settings.subsumptionSteps) (2 ^ 62 + 2 ^ 33)
  settled : Settled (before.stepLimit before.settings.subsumptionSteps) (tool, after)

/-- Subsumption comes to its end, refuted or worked through. -/
theorem process_returns [Realm] (strict : ¬ Realm.Lenient) (sound : engine.Sound)
    (orderly : engine.trail.Orderly) (empty : tool.own.queue = [])
    (marked : ∀ handle clause, engine.arena.live? handle = some clause →
      clause.isCandidate = true ∧ clause.isQueued = false) :
    process.Returns (tool, engine) fun status after => status ≠ .unsat →
      ∃ notices last, Ended engine after.1 last ∧ after.2 = { last with notices := notices } := by
  refine Work.process_returns fun later own budget => .step rfl ?_
  let start : Tool Subsumer × Engine :=
    ({ later with own := { later.own with graph := none } }, engine)
  have nothing : start.1.own.queue = [] := by
    change later.own.queue = []
    rw [own]
    exact empty
  have limited : start.1.budget.limit = engine.stepLimit engine.settings.subsumptionSteps := by
    change later.budget.limit = _
    rw [budget]
    rfl
  have unspent : start.1.budget.spent = 0 := by
    change later.budget.spent = 0
    rw [budget]
    rfl
  have waits : Waits start := by
    intro handle clause live queued
    rw [(marked handle clause live).2] at queued
    cases queued
  have fresh : Fresh start := by
    intro handle member
    rw [nothing] at member
    exact absurd member List.not_mem_nil
  have finishes : run.Finishes start _ _ := run_finishes strict sound orderly rfl fresh
    (fun _ : True => waits) ⟨fun _ => limited, fun _ => unspent ▸ Nat.zero_le _⟩ (fun _ => limited)
    fun _ handle clause live => (marked handle clause live).1
  have leads : run.Ends start _ _ := works_run rfl sound
  refine (finishes.and_ends (leads.and (settling_run start))).imp ?_ fun _ _ => And.left
  rintro _ after ⟨⟨⟨_, round⟩, worked⟩, ⟨leads, _⟩, current⟩
  exact ⟨round.sound, current, leads.settings,
    worked.imp_right fun quiet => ⟨quiet.1, quiet.idle (round.waits trivial)⟩, round.counts,
    round.settled trivial⟩

/-- Subsumption comes to its end with every queue and every mark, and the handles that it
leaves in the queue are as fresh as those that it found there. -/
theorem process_stays_fresh [Realm] (strict : ¬ Realm.Lenient) (sound : engine.Sound)
    (orderly : engine.trail.Orderly) (fresh : Fresh (tool, engine)) :
    process.Returns (tool, engine) fun status after => status ≠ .unsat → Fresh after := by
  have finishes : ∀ later : Tool Subsumer, later.own = tool.own →
      run.Finishes ({ later with own := { later.own with graph := none } }, engine)
        (fun _ after => Fresh (after.1, after.2)) fun cause _ => cause.isUnsat = true := by
    intro later own
    have plain : Uses none ({ later with own := { later.own with graph := none } }, engine) := rfl
    -- Under the greatest limit nothing is said of the steps, and so none need be known.
    have counts : later.budget.Counts 0xFFFFFFFFFFFFFFFF (2 ^ 62 + 2 ^ 33) := .of_large (by decide)
    refine (run_finishes strict sound orderly plain ?_ False.elim counts False.elim False.elim).imp
      (fun _ _ held => ?_) fun _ _ => id
    · intro handle member
      exact fresh handle (own ▸ member)
    · obtain ⟨⟨_, round⟩, _⟩ := held
      exact round.fresh
  let ended (tool : Tool Subsumer) (engine : Engine) : Prop := Fresh (tool, engine)
  have returns : process.Returns (tool, engine) fun status after => status ≠ .unsat →
      ∃ notices last, ended after.1 last ∧ after.2 = { last with notices := notices } :=
    Work.process_returns fun later own _ => .step rfl (finishes later own)
  refine returns.imp fun status after concluded isOpen => ?_
  obtain ⟨notices, last, fresh, same⟩ := concluded isOpen
  intro handle member
  rw [same]
  exact fresh handle member

/-- What subsumption leaves, unless the steps are used up: no clause that is short enough is
part of another clause, as it is or with one literal complemented. It comes to its end with
every limit, and a second run changes nothing.

The counter of the steps is a word. Under a limit in the upper half of the words it might
pass the limit and come round before the next look at it, so that the steps themselves tell
whether they are used up. -/
theorem fixpoint_of_process (ready : engine.Ready)
    (kept : ∀ clause ∈ engine.arena.liveClauses, ∀ literal ∈ clause.literals,
      ¬ engine.trail.Removed literal.var)
    (marked : ∀ clause ∈ engine.arena.liveClauses,
      clause.isCandidate = true ∧ clause.isQueued = false)
    (empty : tool.own.queue = []) :
    process.Returns (tool, engine) fun status after =>
      status ≠ .unsat → after.1.budget.isExhausted = false →
        (after.1.budget.spent < (engine.stepLimit engine.settings.subsumptionSteps).toNat ∨
            (engine.stepLimit engine.settings.subsumptionSteps).toNat ≤ 2 ^ 63 →
          ∀ first second clause other, after.2.arena.live? first = some clause →
            after.2.arena.live? second = some other → first ≠ second →
            clause.size ≤ engine.settings.subsumptionLength.toNat →
              ¬ clause.literals ⊆ other.literals ∧ ∀ literal ∈ clause.literals,
                ¬ Subsumption.flip clause.literals literal ⊆ other.literals) ∧
        process.Returns after fun _ last =>
          last.2.arena.liveClauses = after.2.arena.liveClauses ∧ last.2.changes = after.2.changes := by
  let _ : Realm := .rootLenient
  have sound : engine.Sound := ready.rootSound kept
  refine (process_returns id sound ready.orderly empty fun handle clause live =>
    marked clause (Arena.mem_liveClauses_of_live? live)).imp fun status after concluded isOpen left => ?_
  obtain ⟨tool, _⟩ := after
  obtain ⟨notices, last, ended, rfl⟩ := concluded isOpen
  have unexhausted : ¬ tool.budget.isExhausted = true := by rw [left]; exact Bool.false_ne_true
  obtain ⟨nothing, idle⟩ := ended.worked.resolve_left unexhausted
  refine ⟨fun enough first second clause other live liveOther different short => ?_, ?_⟩
  · have unspent : ¬ tool.budget.UsedUp := by
      rcases enough with below | small
      · have same : tool.budget.limit = engine.stepLimit _ := ended.settled.same
        unfold Budget.UsedUp
        rw [same]
        exact Nat.not_le.2 below
      · exact ended.counts.not_usedUp (by omega) left small
    have spares := ended.settled.stable.resolve_left unspent first clause live
      (idle first clause live) ?_ second (Ne.symm different) other liveOther
    · exact ⟨fun part => spares (.inl part), fun literal member part =>
        spares (.inr ⟨literal, member, part⟩)⟩
    · have few : clause.size ≤ 2 ^ 31 := (ended.sound.ascends live).length_le
      rw [ended.settings, UInt64.lt_iff_toNat_lt, UInt64.toNat_ofNat', Nat.mod_eq_of_lt (by omega)]
      omega
  · have soundLast : Engine.Sound { last with notices := notices } :=
      ended.sound.of_same rfl rfl rfl rfl rfl rfl
    refine (process_of_idle soundLast ended.current idle nothing).imp fun _ final ⟨arena, changes⟩ => ?_
    exact ⟨congrArg Arena.liveClauses arena, changes⟩

/-- A clause subsumes one of three others and strengthens another one. -/
theorem fixpoint_of_process_four :
    ∃ (engine : Engine) (tool : Tool Subsumer) (status : Status) (after : Tool Subsumer × Engine),
      engine.Ready ∧ (∀ clause ∈ engine.arena.liveClauses, ∀ literal ∈ clause.literals,
        ¬ engine.trail.Removed literal.var) ∧
      (∀ clause ∈ engine.arena.liveClauses,
        clause.isCandidate = true ∧ clause.isQueued = false) ∧ tool.own.queue = [] ∧
      process (tool, engine) = .done status after ∧ status ≠ .unsat ∧
      after.1.budget.isExhausted = false ∧
      after.1.budget.spent < (engine.stepLimit engine.settings.subsumptionSteps).toNat ∧
      engine.arena.active = 4 ∧ engine.liveLiterals = 11 ∧
      after.2.arena.active = 3 ∧ after.2.liveLiterals = 7 ∧
      (∀ first second clause other, after.2.arena.live? first = some clause →
        after.2.arena.live? second = some other → first ≠ second →
        clause.size ≤ engine.settings.subsumptionLength.toNat →
          ¬ clause.literals ⊆ other.literals ∧ ∀ literal ∈ clause.literals,
            ¬ Subsumption.flip clause.literals literal ⊆ other.literals) ∧
      process.Returns after fun _ last =>
        last.2.arena.liveClauses = after.2.arena.liveClauses ∧
          last.2.changes = after.2.changes := by
  obtain ⟨_, start, made, ⟨isOpen, empty, marked⟩, ⟨active, literals⟩, status, after, ended,
      ⟨notUnsat, left, below⟩, activeNow, literalsNow⟩ :
      (Simplifier.addClauses [[1, 2], [1, 2, 3], [1, -2, 4], [-4, 5, 6]]).Returns (.ofVars {} 6)
        fun _ start => (start.engine.unsat = false ∧
            start.tools.subsumption.own.queue = [] ∧
            ∀ clause ∈ start.engine.arena.liveClauses,
              clause.isCandidate = true ∧ clause.isQueued = false) ∧
          (start.engine.arena.active = 4 ∧ start.engine.liveLiterals = 11) ∧
          process.Returns (start.tools.subsumption, start.engine) fun status after =>
            (status ≠ .unsat ∧ after.1.budget.isExhausted = false ∧ after.1.budget.spent <
              (start.engine.stepLimit start.engine.settings.subsumptionSteps).toNat) ∧
            after.2.arena.active = 3 ∧ after.2.liveLiterals = 7 := by
    decide +kernel
  obtain ⟨ready, kept⟩ := Simplifier.ready_of_ofClauses made (by decide) isOpen
  obtain ⟨_, _, returned, concluded⟩ :
      process.Returns (start.tools.subsumption, start.engine) _ :=
    fixpoint_of_process ready kept marked empty
  cases ended.symm.trans returned
  obtain ⟨unrelated, again⟩ := concluded notUnsat left
  exact ⟨start.engine, start.tools.subsumption, status, after, ready, kept, marked, empty, ended,
    notUnsat, left, below, active, literals, activeNow, literalsNow, unrelated (.inl below), again⟩

end Subsumer

end CnfSimplifier
