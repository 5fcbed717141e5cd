import CnfSimplifier.Proofs.BlockedClauses

/-!
# Working on one variable

A computation that works on one variable keeps what the root literals and the
irredundant clauses say about all the others: their models are models of what is left,
and the records it pushes turn every model of what is left into one of theirs, changing
the variable at most. If it fails because the formula is refuted, they had no model.

The redundant clauses do not come into it. They are not assumed to follow from the
others, so the records could not bring them back.
-/
namespace CnfSimplifier

namespace Engine

variable {engine before middle after : Engine} {handle : Handle} {clause : Clause}
  {literal : Literal} {literals : List Literal} {values : Assignment} {name : Nat}

/-- An assignment satisfies the root literals and the irredundant clauses. -/
def CoreHolds (engine : Engine) (values : Assignment) : Prop :=
  ∀ literals ∈ engine.core, ClauseHolds values literals

theorem core_subset_formula : engine.core ⊆ engine.picture.formula := by
  rintro literals (⟨handle, clause, live, _, rfl⟩ | atRoot)
  · exact .inl (Arena.contents_of_live live)
  · exact .inr atRoot

theorem CoreHolds.root (holds : engine.CoreHolds values) :
    ∀ literal ∈ engine.trail.facts, literal.Holds values := by
  intro literal atRoot
  obtain ⟨other, single, isTrue⟩ := holds [literal] (.inr ⟨literal, atRoot, rfl⟩)
  rwa [List.mem_singleton.1 single] at isTrue

/-- The irredundant part has a part of a clause, or no assignment falsifies the
clause. -/
def CoreCovers (engine : Engine) (literals : List Literal) : Prop :=
  hasComplements (sortedLiterals literals) = true ∨ ∃ part ∈ engine.core, part ⊆ literals

theorem CoreCovers.mono (covers : engine.CoreCovers literals) (older : engine.core ⊆ after.core) :
    after.CoreCovers literals :=
  covers.imp_right fun ⟨part, inCore, small⟩ => ⟨part, older inCore, small⟩

/-- A covered clause holds if the parts of it do. -/
theorem CoreCovers.clauseHolds (covers : engine.CoreCovers literals) (present : OverVars literals)
    (parts : ∀ part ∈ engine.core, part ⊆ literals → ClauseHolds values part) :
    ClauseHolds values literals :=
  clauseHolds_of_parts covers present parts

/-! ## Keeping what is said about other variables -/

/-- Of what the irredundant part said, only what it said about one variable is lost, and
the new records bring that back. -/
structure Quantifies (before : Engine) (name : Nat) (after : Engine) : Prop where
  numVars : after.numVars = before.numVars
  forth : ∀ values, before.CoreHolds values → after.CoreHolds values
  back : ∃ more, after.records = before.records.pushAll more ∧
    (∀ record ∈ more, record.chosen.var = name ∧
      ∀ literal ∈ record.literals, 0 < literal.var ∧ literal.var ≤ before.numVars) ∧
    ∀ values, after.CoreHolds values → before.CoreHolds (unwind more values)

namespace Quantifies

/-- Without new records. -/
theorem of_equivalent (numVars : after.numVars = before.numVars)
    (records : after.records = before.records)
    (same : ∀ values, after.CoreHolds values ↔ before.CoreHolds values) :
    Quantifies before name after where
  numVars := numVars
  forth values := (same values).2
  back := ⟨[], records, by simp, fun values => (same values).1⟩

theorem of_same (arena : after.arena = before.arena) (trail : after.trail = before.trail)
    (records : after.records = before.records) : Quantifies before name after := by
  refine of_equivalent (congrArg Trail.numVars trail) records fun values => ?_
  unfold CoreHolds
  rw [core_eq_of_same arena trail]

theorem refl : Quantifies engine name engine := of_same rfl rfl rfl

theorem trans (first : Quantifies before name middle) (second : Quantifies middle name after) :
    Quantifies before name after where
  numVars := second.numVars.trans first.numVars
  forth values holds := second.forth values (first.forth values holds)
  back := by
    obtain ⟨records, pushed, own, back⟩ := first.back
    obtain ⟨more, pushedMore, ownMore, backMore⟩ := second.back
    rw [first.numVars] at ownMore
    refine ⟨records ++ more, ?_, List.forall_mem_append.2 ⟨own, ownMore⟩, fun values holds => ?_⟩
    · rw [pushedMore, pushed, Reconstruction.pushAll_append]
    · rw [unwind_append]
      exact back _ (backMore values holds)

end Quantifies

/-- Clauses that got other marks are what they were. -/
theorem Remarks.core (remarks : engine.Remarks after) : after.core = engine.core := by
  unfold Engine.core
  ext literals
  rw [remarks.trail]
  refine or_congr_left ⟨?_, ?_⟩
  · rintro ⟨handle, copy, live, irredundant, rfl⟩
    obtain ⟨found, alive⟩ := Arena.live?_eq_some.1 live
    obtain ⟨slot, inSlot⟩ := Arena.get?_eq_some.1 found
    obtain ⟨clause, inSlotBefore, same, dead, _⟩ := remarks.clauses.slots _ copy inSlot
    have foundBefore : engine.arena.get? handle = some clause :=
      Arena.get?_eq_some.2 ⟨slot.trans remarks.clauses.epoch, inSlotBefore⟩
    refine ⟨handle, clause, Arena.live?_eq_some.2 ⟨foundBefore, dead.symm.trans alive⟩, ?_, same.symm⟩
    exact (remarks.redundant handle clause copy foundBefore found).symm.trans irredundant
  · rintro ⟨handle, clause, live, irredundant, rfl⟩
    obtain ⟨copy, liveAfter, same, stays⟩ := remarks.clauses.live?_back live
    exact ⟨handle, copy, liveAfter, stays irredundant, same⟩

theorem Remarks.quantifies (remarks : engine.Remarks after) : engine.Quantifies name after := by
  refine .of_equivalent (congrArg Trail.numVars remarks.trail) remarks.records fun values => ?_
  unfold CoreHolds
  rw [remarks.core]

/-! ## Removing clauses -/

/-- Taking clauses away leaves a part of the core. -/
theorem Takes.core_subset {gone : List (List Literal)} {records : List Record} {names : List Nat}
    (takes : engine.Takes gone records names after) : after.core ⊆ engine.core := by
  rintro literals (⟨handle, clause, live, irredundant, rfl⟩ | atRoot)
  · exact .inl ⟨handle, clause, takes.older handle clause live, irredundant, rfl⟩
  · exact .inr (takes.root ▸ atRoot)

/-- What of the irredundant part does not stay belongs to the clauses that were to go. -/
theorem Takes.core_of_spares {gone : List (List Literal)} {records : List Record} {names : List Nat}
    {handles : List Handle} (takes : engine.Takes gone records names after)
    (spares : engine.Spares handles after) (inCore : literals ∈ engine.core) :
    literals ∈ after.core ∨ ∃ handle ∈ handles, ∃ clause, engine.arena.live? handle = some clause ∧
      clause.isRedundant = false ∧ clause.literals = literals := by
  rcases inCore with ⟨handle, clause, live, irredundant, rfl⟩ | atRoot
  · by_cases inside : handle ∈ handles
    · exact .inr ⟨handle, inside, clause, live, irredundant, rfl⟩
    · exact .inl (.inl ⟨handle, clause, spares handle clause live inside, irredundant, rfl⟩)
  · exact .inl (.inr (takes.root.symm ▸ atRoot))

/-- The core has no clause that gives something else than a tautology with a blocked one. -/
theorem resolvent?_of_core [Realm] {partners : List Handle} (sound : engine.Sound)
    (removable : engine.Removable literal.var) (present : 0 < literal.var)
    (lists : engine.ListsPartners literal partners)
    (blocked : Resolution.isBlocked? engine.arena literal.var clause.literals partners = some true)
    (inCore : literals ∈ engine.core) (clash : literal.complement ∈ literals) :
    Resolution.resolvent? literal.var clause.literals literals = none := by
  rcases inCore with ⟨handle, partner, live, _, rfl⟩ | ⟨unit, atRoot, rfl⟩
  · exact resolvent?_of_blocked sound lists blocked (Arena.contents_of_live live) clash
  · refine absurd ?_ (removable.isOpen unit atRoot)
    rw [← List.mem_singleton.1 clash, Literal.var_complement present]

/-- A blocked clause goes, and its record brings it back. -/
theorem Takes.quantifies_of_blocked [Realm] {partners : List Handle} (sound : engine.Sound)
    (member : literal ∈ clause.literals) (removable : engine.Removable literal.var)
    (lists : engine.ListsPartners literal partners)
    (live : engine.arena.live? handle = some clause)
    (blocked : Resolution.isBlocked? engine.arena literal.var clause.literals partners = some true)
    (takes : engine.Takes [clause.literals] (if clause.isRedundant then [] else
      [Record.ofClause literal clause.literals]) [] after)
    (others : engine.KeepsOthers handle after) : engine.Quantifies literal.var after where
  numVars := takes.numVars
  forth values holds literals inCore := holds literals (takes.core_subset inCore)
  back := by
    have admits := sound.wellFormed.admits _ (Arena.contents_of_live live)
    have present : OverVars clause.literals := fun other inside => (admits.present other inside).1
    refine ⟨_, takes.pushed, ?_, fun values holds => ?_⟩
    · intro record isRecord
      split at isRecord
      next => cases isRecord
      next =>
        obtain rfl := List.mem_singleton.1 isRecord
        refine ⟨rfl, fun other inside => ?_⟩
        obtain ⟨positive, inRange, _⟩ :=
          admits.present other ((Record.mem_ofClause member).1 inside)
        exact ⟨positive, inRange⟩
    · have rest : ∀ literals ∈ engine.core, literals ∈ after.core ∨
          clause.isRedundant = false ∧ clause.literals = literals := by
        intro literals inCore
        refine (takes.core_of_spares others.spares inCore).imp_right ?_
        rintro ⟨other, single, found, liveFound, irredundant, same⟩
        rw [List.mem_singleton.1 single, live, Option.some.injEq] at liveFound
        exact liveFound ▸ ⟨irredundant, same⟩
      split
      next redundant =>
        intro literals inCore
        refine holds literals ((rest literals inCore).resolve_right ?_)
        rintro ⟨irredundant, _⟩
        rw [redundant] at irredundant
        cases irredundant
      next irredundant =>
        obtain ⟨own, stays⟩ := clauseHolds_repair_of_blocked present member
          (fun partner inCore => resolvent?_of_core sound removable (present literal member) lists
            blocked (takes.core_subset inCore)) holds
        intro literals inCore
        rcases rest literals inCore with kept | ⟨_, rfl⟩
        · exact stays literals kept
        · exact own

/-! ## Adding clauses -/

/-- The engine after an irredundant clause was added, or a part of it. -/
structure Gains (engine : Engine) (literals : List Literal) (after : Engine) : Prop where
  numVars : after.numVars = engine.numVars
  records : after.records = engine.records
  older : engine.core ⊆ after.core
  covered : after.CoreCovers literals
  holds : ∀ values, engine.CoreHolds values → ClauseHolds values literals → after.CoreHolds values

/-- A new clause is gained. -/
theorem Gains.of_new {part : List Literal} (numVars : after.numVars = engine.numVars)
    (records : after.records = engine.records) (core : after.core = insert part engine.core)
    (small : part ⊆ literals) (holds : ∀ values, engine.CoreHolds values →
      ClauseHolds values literals → ClauseHolds values part) : Gains engine literals after where
  numVars := numVars
  records := records
  older := core ▸ Set.subset_insert part engine.core
  covered := .inr ⟨part, core ▸ Set.mem_insert part engine.core, small⟩
  holds values old whole other inCore := by
    rw [core] at inCore
    rcases inCore with rfl | earlier
    · exact holds values old whole
    · exact old other earlier

/-- A clause that holds already, or in part, is not added. -/
theorem Gains.of_covered (covered : engine.CoreCovers literals) : Gains engine literals engine :=
  ⟨rfl, rfl, fun _ inCore => inCore, covered, fun _ holds _ => holds⟩

/-- The root literals after one was assigned. -/
theorem core_of_push {trail : Trail} (value : engine.trail.literalValue? literal = some none)
    (pushed : engine.trail.push literal 0 = some trail) (arena : after.arena = engine.arena)
    (now : after.trail = trail) : after.core = insert [literal] engine.core := by
  unfold core
  ext literals
  rw [arena, now, Trail.facts_push value pushed]
  simp only [Set.mem_ofPred_eq, List.mem_append, List.mem_singleton, Set.mem_insert_iff]
  constructor
  · rintro (stored | ⟨other, atRoot | rfl, rfl⟩)
    · exact .inr (.inl stored)
    · exact .inr (.inr ⟨other, atRoot, rfl⟩)
    · exact .inl rfl
  · rintro (rfl | stored | ⟨other, atRoot, rfl⟩)
    · exact .inr ⟨literal, .inr rfl, rfl⟩
    · exact .inl stored
    · exact .inr ⟨other, .inl atRoot, rfl⟩

/-- The irredundant clauses after one was put in. -/
theorem Inserts.core (inserts : Inserts engine literals false after)
    (sorted : literals.Pairwise (· < ·)) :
    after.core = insert literals engine.core := by
  have grows := inserts.grows sorted
  have isNew : after.arena.slots[engine.arena.slots.size]? =
      some (Clause.ofLiterals literals false) := by
    rw [inserts.slots, Array.getElem?_push_size]
  have own : (Clause.ofLiterals literals false).literals = literals :=
    sortedLiterals_of_pairwise sorted
  unfold Engine.core
  ext other
  rw [inserts.trail]
  simp only [Set.mem_ofPred_eq, Set.mem_insert_iff, ← or_assoc]
  refine or_congr_left ⟨?_, ?_⟩
  · rintro ⟨handle, clause, live, irredundant, rfl⟩
    obtain ⟨found, alive⟩ := Arena.live?_eq_some.1 live
    rw [Arena.get?_eq_some, inserts.epoch, inserts.slots, Array.getElem?_push] at found
    obtain ⟨current, inSlot⟩ := found
    split at inSlot
    next =>
      rw [← Option.some.inj inSlot]
      exact .inl own
    next =>
      refine .inr ⟨handle, clause, Arena.live?_eq_some.2 ⟨?_, alive⟩, irredundant, rfl⟩
      exact Arena.get?_eq_some.2 ⟨current, inSlot⟩
  · rintro (rfl | ⟨handle, clause, live, irredundant, rfl⟩)
    · exact ⟨_, _, Arena.live?_handleAt inserts.inStep.space.le isNew rfl, rfl, own⟩
    · obtain ⟨found, alive⟩ := Arena.live?_eq_some.1 live
      exact ⟨handle, clause, Arena.live?_eq_some.2 ⟨grows.older handle clause found, alive⟩,
        irredundant, rfl⟩

/-- An irredundant clause over variables of the formula is added, or a part of it. If
nothing is left of it, no model of the formula satisfied it. -/
theorem addClause_gains [Realm] (sound : engine.Sound)
    (present : ∀ literal ∈ literals, engine.picture.Present literal.var) :
    (addClause literals false).Ends engine (fun _ after => engine.Gains literals after)
      fun cause _ => cause.isUnsat = true →
        ∀ values, engine.CoreHolds values → ¬ ClauseHolds values literals := by
  have overVars : OverVars literals := fun literal member => (present literal member).1
  refine storeClause_ends sound.trail (fun _ isUnsat => nomatch isUnsat)
    (fun _ complementary => .of_covered (.inl complementary)) ?_ ?_
  · rintro ⟨literal, member, atRoot⟩
    refine .of_covered (.inr ⟨[literal], .inr ⟨literal, atRoot, rfl⟩, ?_⟩)
    simpa using member
  intro _ plain remaining reduced
  have left : ∀ values, engine.CoreHolds values → ClauseHolds values literals →
      ClauseHolds values remaining := fun values holds =>
    (reduced.clauseHolds_iff overVars holds.root).2
  rcases remaining with _ | ⟨first, _ | ⟨second, others⟩⟩
  · refine .fail fun _ values holds satisfied => ?_
    obtain ⟨_, impossible, _⟩ := left values holds satisfied
    cases impossible
  · have value := reduced.value first List.mem_cons_self
    by_cases removed : engine.trail.Removed first.var
    · refine .of_failed (Run.bind_of_failed (assignUnit_of_removed value removed)) ?_
      exact fun isUnsat => nomatch isUnsat
    refine .seq ((assignUnit_of_open sound.trail value removed).imp ?_ fun _ _ no => no.elim)
    rintro _ _ ⟨trail, tally, changes, pushed, rfl⟩
    have flags := Trail.sameFlags_push pushed
    exact .pure (.of_new flags.numVars rfl (core_of_push value pushed rfl rfl) reduced.subset left)
  · refine .step rfl (insertClause_seq ?_ reduced.sorted fun after inserts => ?_)
    · exact sound.toInStep.of_same rfl rfl rfl rfl
    refine .step rfl (.pure ?_)
    refine .of_new (congrArg Trail.numVars inserts.trail) inserts.records ?_ reduced.subset left
    exact inserts.core reduced.sorted

end Engine

/-! ## Computations that work on a variable -/

variable [Realm] {σ τ α β : Type} [HasEngine σ]

/-- From a sound state a computation works, and of what the irredundant part says it
changes only what it says about one variable. If it fails because the formula is
refuted, the irredundant part has no model. -/
def WorksOn (name : Nat) (body : Run σ α) (state : σ) (post : α → σ → Prop) : Prop :=
  (engineOf state).Sound → body.Ends state
    (fun value after => ((engineOf state).Leads .removal (engineOf after) ∧
      (engineOf state).Quantifies name (engineOf after)) ∧ post value after)
    (fun cause after => (engineOf state).Fails .removal (engineOf after) cause ∧
      (cause.isUnsat = true → ∀ values, ¬ (engineOf state).CoreHolds values))

namespace WorksOn

variable {name : Nat} {body : Run σ α} {state : σ} {post : α → σ → Prop} {next : α → Run σ β}
  {last : β → σ → Prop}

theorem works (works : WorksOn name body state post) : Works .removal body state post := fun sound =>
  (works sound).imp (fun _ _ ⟨⟨leads, _⟩, holds⟩ => ⟨leads, holds⟩) fun _ _ ⟨fails, _⟩ => fails

theorem imp {less : α → σ → Prop} (works : WorksOn name body state post)
    (holds : ∀ value after, post value after → less value after) :
    WorksOn name body state less := fun sound =>
  (works sound).imp (fun value after ⟨both, reached⟩ => ⟨both, holds value after reached⟩)
    fun _ _ fails => fails

/-- The soundness of the state may be used. -/
theorem of_sound (works : (engineOf state).Sound → WorksOn name body state post) :
    WorksOn name body state post := fun sound => works sound sound

theorem pure {value : α} (holds : post value state) :
    WorksOn name (pure value : Run σ α) state post :=
  fun sound => .pure ⟨⟨.refl sound, .refl⟩, holds⟩

/-- A part that is known to work may be looked at for what it says. -/
theorem of_works (works : Works .removal body state post)
    (weighs : (engineOf state).Sound → body.Ends state
      (fun _ after => (engineOf state).Quantifies name (engineOf after))
      fun cause _ => cause.isUnsat = true → ∀ values, ¬ (engineOf state).CoreHolds values) :
    WorksOn name body state post := fun sound =>
  ((works sound).and (weighs sound)).imp
    (fun _ _ ⟨⟨leads, holds⟩, quantifies⟩ => ⟨⟨leads, quantifies⟩, holds⟩) fun _ _ both => both

/-- A part that never fails and says itself how little it changes. -/
theorem of_post (works : Works .removal body state post)
    (never : body.Ends state (fun _ _ => True) fun _ _ => False)
    (quantifies : ∀ value after, post value after →
      (engineOf state).Quantifies name (engineOf after)) : WorksOn name body state post := fun sound =>
  ((works sound).and never).imp
    (fun value after ⟨⟨leads, holds⟩, _⟩ => ⟨⟨leads, quantifies value after holds⟩, holds⟩)
    fun _ _ ⟨_, impossible⟩ => impossible.elim

/-- Work goes on from a state that was led to. -/
theorem resume {middle : σ} (works : WorksOn name body middle post)
    (sound : (engineOf state).Sound) (leads : (engineOf state).Leads .removal (engineOf middle))
    (quantifies : (engineOf state).Quantifies name (engineOf middle)) :
    body.Ends middle
      (fun value after => ((engineOf state).Leads .removal (engineOf after) ∧
        (engineOf state).Quantifies name (engineOf after)) ∧ post value after)
      (fun cause after => (engineOf state).Fails .removal (engineOf after) cause ∧
        (cause.isUnsat = true → ∀ values, ¬ (engineOf state).CoreHolds values)) := by
  refine (works (leads.sound sound)).imp ?_ ?_
  · rintro value after ⟨⟨further, more⟩, reached⟩
    exact ⟨⟨leads.trans further, quantifies.trans more⟩, reached⟩
  · rintro cause after ⟨fails, refuted⟩
    refine ⟨leads.then_fails fails, fun isUnsat values holds => ?_⟩
    exact refuted isUnsat values (quantifies.forth values holds)

/-- Parts that work follow one another. -/
theorem bind (first : WorksOn name body state post)
    (rest : ∀ value after, (engineOf state).Leads .removal (engineOf after) → post value after →
      WorksOn name (next value) after last) : WorksOn name (body >>= next) state last := by
  intro sound
  refine (first sound).bind fun value after ⟨⟨leads, quantifies⟩, holds⟩ => ?_
  exact (rest value after leads holds).resume sound leads quantifies

/-- A part that does not touch the engine. -/
theorem step {value : α} {after : σ} (ended : body state = .done value after)
    (same : engineOf after = engineOf state) (rest : WorksOn name (next value) after last) :
    WorksOn name (body >>= next) state last := by
  intro sound
  refine .step ended ?_
  have ends := rest (same ▸ sound)
  rw [same] at ends
  exact ends

/-- A part that only looks. -/
theorem look {found : α → Prop} (looks : body.Looks state found)
    (rest : ∀ value, found value → WorksOn name (next value) state last) :
    WorksOn name (body >>= next) state last :=
  fun sound => looks.bind fun value holds => rest value holds sound

/-- Work inside a larger state that has the same engine. -/
theorem within {ρ : Type} [HasEngine ρ] {inner : Run ρ α} {start : ρ} {put : ρ → σ}
    {post : α → ρ → Prop} {outerPost : α → σ → Prop}
    (same : body state = (inner start).mapState put) (whole : engineOf state = engineOf start)
    (back : ∀ part, engineOf (put part) = engineOf part) (works : WorksOn name inner start post)
    (holds : ∀ value part, post value part → outerPost value (put part)) :
    WorksOn name body state outerPost := by
  intro sound
  refine .within same ?_
  rw [whole] at sound ⊢
  refine (works sound).imp (fun value after ⟨both, reached⟩ => ?_) fun cause after fails => ?_
  · rw [back]
    exact ⟨both, holds value after reached⟩
  · rw [back]
    exact fails

/-- An operation of the engine used on a tool and the engine leaves the tool. -/
theorem lift {body : Run Engine α} {state : τ × Engine} {post : α → Engine → Prop}
    (works : WorksOn name body state.2 post) :
    WorksOn name (liftM body : Run (τ × Engine) α) state
      fun value after => after.1 = state.1 ∧ post value after.2 := by
  have same : (liftM body : Run (τ × Engine) α) state =
      (body state.2).mapState fun engine => (state.1, engine) := rfl
  exact .within same rfl (fun _ => rfl) works fun _ _ holds => ⟨rfl, holds⟩

end WorksOn

namespace Engine

variable {engine : Engine} {handle : Handle} {name : Nat}

theorem worksOn_count (change : Tally → Tally) : WorksOn name (count change) engine
    fun _ after => after = { engine with tally := change engine.tally } :=
  .of_works (works_count change) fun _ => .of_done rfl (.of_same rfl rfl rfl)

theorem worksOn_markClause {change : ClauseFlags → ClauseFlags}
    (dead : ∀ flags, (change flags).dead = flags.dead)
    (redundant : ∀ flags, (change flags).redundant = flags.redundant) :
    WorksOn name (markClause handle change) engine fun _ after => engine.Remarks after :=
  .of_post (works_markClause dead redundant) (.of_done rfl trivial) fun _ _ remarks => remarks.quantifies

/-- A blocked clause may go. -/
theorem worksOn_removeBlocked {clause : Clause} {literal : Literal} {partners : List Handle}
    (member : literal ∈ clause.literals) (removable : engine.Removable literal.var)
    (lists : engine.ListsPartners literal partners)
    (live : engine.arena.live? handle = some clause)
    (blocked : Resolution.isBlocked? engine.arena literal.var clause.literals partners =
      some true) :
    WorksOn literal.var (removeWithRecord handle literal) engine fun _ after =>
      after.trail = engine.trail ∧ after.arena.live? handle = none ∧
        engine.KeepsOthers handle after := by
  refine .of_works (works_removeBlocked member removable lists live blocked) fun sound => ?_
  refine (removeWithRecord_ends sound.toInStep live).imp ?_ fun _ _ failed => failed
  rintro _ after ⟨takes, _, others, _⟩
  exact takes.quantifies_of_blocked sound member removable lists live blocked others

/-- A clause that follows from the irredundant part by resolution is added, or a part
of it. -/
theorem worksOn_addClause {literals : List Literal}
    (present : ∀ literal ∈ literals, engine.picture.Present literal.var)
    (follows : Rup engine.picture.formula literals)
    (implied : ∀ values, engine.CoreHolds values → ClauseHolds values literals) :
    WorksOn name (addClause literals false) engine fun _ after =>
      Grows engine (· ∈ literals) after ∧ engine.core ⊆ after.core ∧ after.CoreCovers literals := by
  intro sound
  have works : Works .removal (addClause literals false) engine _ :=
    works_addClause present follows fun _ => rfl
  refine ((works sound).and (addClause_gains sound present)).imp ?_ ?_
  · rintro _ after ⟨⟨leads, grows, _⟩, gains⟩
    refine ⟨⟨leads, .of_equivalent gains.numVars gains.records fun values => ⟨fun holds => ?_,
      fun holds => gains.holds values holds (implied values holds)⟩⟩, grows, gains.older,
      gains.covered⟩
    exact fun part inCore => holds part (gains.older inCore)
  · rintro cause after ⟨fails, refuted⟩
    exact ⟨fails, fun isUnsat values holds => refuted isUnsat values holds (implied values holds)⟩

end Engine

end CnfSimplifier
