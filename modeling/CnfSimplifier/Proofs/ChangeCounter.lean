import CnfSimplifier.Proofs.Tracking

/-!
# Counting changes

A run stops when a pass made no change, and the counter of the engine is all that it
asks. So the counter has to miss nothing: as long as it stands still, the clauses are
the same in the same slots, and so are the trail, the records and the marks of the
variables. Marks of clauses, phases, statistics and the proof are not part of this.

Most operations change the formula and count it at once, whatever state they meet.
*Counted* computations are put together from these; only probing, which takes its
assignments back, and batch elimination, which reports at the end, need a closer
look.
-/
namespace CnfSimplifier

/-! ## Live clauses slot by slot -/

/-- The literals of a clause, unless it is dead. -/
def Clause.liveLiterals? (clause : Clause) : Option (List Literal) :=
  if clause.isDead then none else some clause.literals

namespace Arena

/-- Two arenas have the same live clauses in the same slots. -/
structure SameLive (arena after : Arena) : Prop where
  epoch : after.epoch = arena.epoch
  slots : after.slots.map Clause.liveLiterals? = arena.slots.map Clause.liveLiterals?

variable {arena middle after : Arena}

theorem SameLive.refl (arena : Arena) : SameLive arena arena := ⟨rfl, rfl⟩

theorem SameLive.trans (first : SameLive arena middle) (second : SameLive middle after) :
    SameLive arena after :=
  ⟨second.epoch.trans first.epoch, second.slots.trans first.slots⟩

/-- Marks do not matter. -/
theorem SameClauses.sameLive (same : SameClauses arena after) : SameLive arena after := by
  refine ⟨same.epoch, Array.ext_getElem? fun slot => ?_⟩
  rw [Array.getElem?_map, Array.getElem?_map]
  cases found : arena.slots[slot]? with
  | none =>
    have outside : after.slots.size ≤ slot := by
      rw [same.size]
      exact Array.getElem?_eq_none_iff.1 found
    rw [Array.getElem?_eq_none outside]
  | some old =>
    obtain ⟨clause, foundAfter, literals, dead, _⟩ := same.slot_back found
    rw [foundAfter]
    simp only [Option.map_some, Clause.liveLiterals?, literals, dead]

/-- The live clauses have the same literals in the same order. -/
theorem SameLive.liveClauses (same : SameLive arena after) :
    after.liveClauses.map Clause.literals = arena.liveClauses.map Clause.literals := by
  have listed : ∀ clauses : List Clause,
      (clauses.filter fun clause => !clause.isDead).map Clause.literals =
        (clauses.map Clause.liveLiterals?).filterMap id := by
    intro clauses
    induction clauses with
    | nil => rfl
    | cons clause rest ih =>
      by_cases dead : clause.isDead = true <;> simp [Clause.liveLiterals?, dead, ih]
  have slots := congrArg Array.toList same.slots
  rw [Array.toList_map, Array.toList_map] at slots
  unfold Arena.liveClauses
  rw [listed, listed, slots]

end Arena

/-! ## What the counter tells -/

namespace Engine

/-- Nothing of the formula differs: the live clauses, the trail, the records and the
marks of the variables. -/
structure Still (before after : Engine) : Prop where
  clauses : before.arena.SameLive after.arena
  literals : after.trail.literals = before.trail.literals
  levels : after.trail.levels = before.trail.levels
  values : ∀ name, 0 < name → after.trail.value? name = before.trail.value? name
  flags : before.trail.SameFlags after.trail
  records : after.records = before.records

/-- The settings and the interrupt flag stay, the counter does not go back, and if it
stands still nothing of the formula differs. -/
structure Counts (before after : Engine) : Prop where
  settings : after.settings = before.settings
  interrupted : after.interrupted = before.interrupted
  grows : before.changes ≤ after.changes
  still : after.changes = before.changes → before.Still after

/-- A change was counted. -/
structure Touches (before after : Engine) : Prop where
  settings : after.settings = before.settings
  interrupted : after.interrupted = before.interrupted
  more : before.changes < after.changes

/-- Nothing was counted. -/
structure Uncounted (before after : Engine) : Prop where
  settings : after.settings = before.settings
  interrupted : after.interrupted = before.interrupted
  changes : after.changes = before.changes

variable {before middle after : Engine}

theorem Still.refl (engine : Engine) : engine.Still engine :=
  ⟨.refl _, rfl, rfl, fun _ _ => rfl, .refl _, rfl⟩

theorem Still.trans (first : before.Still middle) (second : middle.Still after) :
    before.Still after where
  clauses := first.clauses.trans second.clauses
  literals := second.literals.trans first.literals
  levels := second.levels.trans first.levels
  values name positive := (second.values name positive).trans (first.values name positive)
  flags := first.flags.trans second.flags
  records := second.records.trans first.records

/-- Everything but clauses, trail and records may differ. -/
theorem Still.of_same (arena : after.arena = before.arena) (trail : after.trail = before.trail)
    (records : after.records = before.records) : before.Still after where
  clauses := arena ▸ .refl _
  literals := by rw [trail]
  levels := by rw [trail]
  values _ _ := by rw [trail]
  flags := trail ▸ .refl _
  records := records

theorem Uncounted.refl (engine : Engine) : engine.Uncounted engine := ⟨rfl, rfl, rfl⟩

theorem Uncounted.trans (first : before.Uncounted middle) (second : middle.Uncounted after) :
    before.Uncounted after :=
  ⟨second.settings.trans first.settings, second.interrupted.trans first.interrupted,
    second.changes.trans first.changes⟩

theorem Uncounted.counts (uncounted : before.Uncounted after) (still : before.Still after) :
    before.Counts after :=
  ⟨uncounted.settings, uncounted.interrupted, uncounted.changes.ge, fun _ => still⟩

/-- Whatever a change is, counting it is enough. -/
theorem Touches.counts (touches : before.Touches after) : before.Counts after :=
  ⟨touches.settings, touches.interrupted, touches.more.le,
    fun same => absurd same touches.more.ne'⟩

theorem Touches.trans (first : before.Touches middle) (second : middle.Touches after) :
    before.Touches after :=
  ⟨second.settings.trans first.settings, second.interrupted.trans first.interrupted,
    first.more.trans second.more⟩

theorem Uncounted.trans_touches (first : before.Uncounted middle) (second : middle.Touches after) :
    before.Touches after :=
  ⟨second.settings.trans first.settings, second.interrupted.trans first.interrupted,
    first.changes ▸ second.more⟩

theorem Touches.trans_uncounted (first : before.Touches middle) (second : middle.Uncounted after) :
    before.Touches after :=
  ⟨second.settings.trans first.settings, second.interrupted.trans first.interrupted,
    second.changes.symm ▸ first.more⟩

theorem Counts.refl (engine : Engine) : engine.Counts engine :=
  (Uncounted.refl engine).counts (.refl engine)

/-- If the counter stands still over two computations, it stands still over each. -/
theorem Counts.trans (first : before.Counts middle) (second : middle.Counts after) :
    before.Counts after where
  settings := second.settings.trans first.settings
  interrupted := second.interrupted.trans first.interrupted
  grows := first.grows.trans second.grows
  still same := by
    have stood : middle.changes = before.changes :=
      le_antisymm (same ▸ second.grows) first.grows
    exact (first.still stood).trans (second.still (same.trans stood.symm))

instance : Composable Counts where
  aside same := Uncounted.counts ⟨same.settings, same.interrupted, same.changes⟩
    (.of_same same.arena same.trail same.records)
  trans := .trans

end Engine

/-! ## Computations that count -/

variable {σ τ α β : Type} [HasEngine σ]

/-- A computation counts what it changes, whether it is done or fails. -/
abbrev Counted (body : Run σ α) : Prop := Tracks Engine.Counts body

/-- A computation does not fail, and it counts a change. -/
def Touching (body : Run σ α) : Prop :=
  ∀ (state : σ) (failed : Error → σ → Prop),
    body.Ends state (fun _ after => (engineOf state).Touches (engineOf after)) failed

/-- A computation does not fail, and it counts nothing. -/
def Unseen (body : Run σ α) : Prop :=
  ∀ (state : σ) (failed : Error → σ → Prop),
    body.Ends state (fun _ after => (engineOf state).Uncounted (engineOf after)) failed

section Rules

variable {body : Run σ α} {next : α → Run σ β}

theorem Touching.counted (touching : Touching body) : Counted body :=
  fun state => (touching state _).imp (fun _ _ => Engine.Touches.counts) fun _ _ => id

/-- What was not counted at first is counted in the end. -/
theorem Unseen.touching (first : Unseen body) (rest : ∀ value, Touching (next value)) :
    Touching (body >>= next) := by
  intro state failed
  refine (first state failed).bind fun value after uncounted => ?_
  exact (rest value after failed).imp (fun _ _ => uncounted.trans_touches) fun _ _ => id

/-- What was counted stays counted. -/
theorem Touching.unseen (first : Touching body) (rest : ∀ value, Unseen (next value)) :
    Touching (body >>= next) := by
  intro state failed
  refine (first state failed).bind fun value after touches => ?_
  exact (rest value after failed).imp (fun _ _ => touches.trans_uncounted) fun _ _ => id

theorem Unseen.bind (first : Unseen body) (rest : ∀ value, Unseen (next value)) :
    Unseen (body >>= next) := by
  intro state failed
  refine (first state failed).bind fun value after uncounted => ?_
  exact (rest value after failed).imp (fun _ _ => uncounted.trans) fun _ _ => id

theorem Unseen.pure {value : α} : Unseen (pure value : Run σ α) := fun _ _ => .pure (.refl _)

theorem Unseen.forM {ι : Type} {items : List ι} {turn : ι → Run σ PUnit}
    (unseen : ∀ item, Unseen (turn item)) : Unseen (items.forM turn) :=
  Run.forM_of_turns (motive := Unseen) .pure (fun first rest => first.bind fun _ => rest)
    fun item _ => unseen item

/-- A loop whose turns are counted is counted, unless there is no turn. -/
theorem Touching.forM {ι : Type} {items : List ι} {turn : ι → Run σ PUnit}
    (touching : ∀ item, Touching (turn item)) (state : σ) (failed : Error → σ → Prop) :
    (items.forM turn).Ends state (fun _ after =>
      (engineOf state).Touches (engineOf after) ∨ items = [] ∧ after = state) failed := by
  induction items generalizing state with
  | nil => exact .pure (.inr ⟨rfl, rfl⟩)
  | cons item rest ih =>
    refine (touching item state failed).bind fun _ middle touches => ?_
    refine (ih middle).imp ?_ fun _ _ => id
    rintro _ after (further | ⟨_, rfl⟩)
    · exact .inl (touches.trans further)
    · exact .inl touches

theorem Unseen.lift {body : Run Engine α} (unseen : Unseen body) :
    Unseen (liftM body : Run (τ × Engine) α) :=
  fun state _ => (Run.Ends.lift (unseen state.2 _)).imp (fun _ _ => And.right) fun _ _ => id

end Rules

/-- A computation that is done and leaves the formula. -/
theorem Counted.of_still {body : Run σ α} (ended : ∀ state, body.Ends state
    (fun _ after => (engineOf state).Uncounted (engineOf after) ∧
      (engineOf state).Still (engineOf after)) fun _ _ => False) : Counted body := by
  intro state
  refine (ended state).imp (fun _ after => ?_) fun _ _ => False.elim
  rintro ⟨uncounted, still⟩
  exact uncounted.counts still

/-! ## The engine -/

/-- An open variable is open when levels are closed. -/
theorem Trail.open_of_unassign {name : Nat} (literals : List Literal) {trail after : Trail}
    (isOpen : trail.value? name = some none) (unassigned : trail.unassign literals = some after) :
    after.value? name = some none := by
  induction literals generalizing trail with
  | nil =>
    cases unassigned
    exact isOpen
  | cons literal rest ih =>
    obtain ⟨middle, changed, further⟩ := Option.bind_eq_some_iff.1 unassigned
    refine ih ?_ further
    obtain ⟨rfl, _⟩ := Trail.vars_modify? changed
    unfold Trail.value? at isOpen ⊢
    rw [Array.getElem?_modify]
    split
    · cases found : trail.vars[name]? with
      | none => simp [found] at isOpen
      | some state => rfl
    · exact isOpen

/-- A variable without value has none after levels are cancelled. -/
theorem Trail.open_of_cancelUntil {name level : Nat} {trail after : Trail}
    (isOpen : trail.value? name = some none) (cancelled : trail.cancelUntil level = some after) :
    after.value? name = some none := by
  unfold Trail.cancelUntil at cancelled
  split at cancelled
  · cases cancelled
    exact isOpen
  · obtain ⟨middle, unassigned, same⟩ := Option.bind_eq_some_iff.1 cancelled
    cases same
    exact (Trail.open_of_unassign _ isOpen unassigned : middle.value? name = _)

/-- An open variable can be assigned at the root. -/
theorem Trail.assignAtRoot_of_value {trail : Trail} {literal : Literal}
    (isOpen : trail.value? literal.var = some none) :
    (Trail.assignAtRoot literal).Ends trail (fun _ _ => True) fun _ _ => False := by
  unfold Trail.assignAtRoot
  refine .seq (.update fun cancelled closes => .step rfl ?_)
  have stillOpen := Trail.open_of_cancelUntil isOpen closes
  have inside : literal.var < cancelled.vars.size := by
    unfold Trail.value? at stillOpen
    by_contra outside
    simp [Array.getElem?_eq_none (not_lt.1 outside)] at stillOpen
  have inRange : ¬ cancelled.numVars < literal.var := by
    unfold Trail.numVars
    omega
  rw [if_neg inRange, stillOpen]
  exact .step rfl (.update fun _ _ => trivial)

namespace Engine

variable {literal : Literal} {handle : Handle} {literals : List Literal}

/-- Marks that leave a clause alive or dead. -/
theorem counted_markClause {change : ClauseFlags → ClauseFlags}
    (dead : ∀ flags, (change flags).dead = flags.dead)
    (redundant : ∀ flags, (change flags).redundant = flags.redundant) :
    Counted (markClause handle change) := by
  refine .of_still fun engine => ?_
  cases marked : engine.arena.mark handle change with
  | none => exact .of_done (markClause_of_none marked) ⟨.refl _, .refl _⟩
  | some arena =>
    refine .of_done (markClause_of_mark marked) ⟨⟨rfl, rfl, rfl⟩, ?_⟩
    exact { Still.refl engine with
      clauses := (Arena.sameClauses_mark dead redundant marked).sameLive }

theorem counted_makeIrredundant : Counted (makeIrredundant handle) := by
  refine .of_still fun engine => updateArena_ends fun arena changed => ⟨⟨rfl, rfl, rfl⟩, ?_⟩
  exact { Still.refl engine with clauses := (Arena.sameClauses_makeIrredundant changed).sameLive }

/-- A suggested phase is not a value. -/
theorem counted_setPhase {name : Nat} {phase : Bool} :
    Counted (updateTrail fun trail => trail.setPhase name phase) := by
  refine .of_still fun engine => updateTrail_ends fun trail changed => ⟨⟨rfl, rfl, rfl⟩, ?_⟩
  obtain ⟨same, _⟩ := Trail.vars_modify? changed
  have vars : trail.vars = engine.trail.vars.modify name
      fun state => { state with phase := some phase } := congrArg Trail.vars same
  have flags : engine.trail.SameFlags trail :=
    Trail.sameFlags_modify vars (fun _ => rfl) (by rw [same]) (by rw [same])
  have values := Trail.value?_modify_of_keeps vars fun _ => rfl
  refine { Still.refl engine with
    literals := ?_, levels := ?_, values := fun name _ => values name, flags := flags }
  · exact (by rw [same] : trail.literals = engine.trail.literals)
  · exact (by rw [same] : trail.levels = engine.trail.levels)

theorem unseen_prove {step : ProofStep} : Unseen (prove step) :=
  fun _ _ => .of_done rfl ⟨rfl, rfl, rfl⟩

theorem unseen_count {change : Tally → Tally} : Unseen (count change) :=
  fun _ _ => .of_done rfl ⟨rfl, rfl, rfl⟩

theorem unseen_clause : Unseen (Engine.clause handle) := fun _ _ => .read fun _ _ => .refl _

theorem unseen_pushRecord {chosen : Literal} :
    Unseen (pushRecord chosen literals) := fun _ _ => .of_done rfl ⟨rfl, rfl, rfl⟩

theorem unseen_updateArena {change : Arena → Option Arena} : Unseen (updateArena change) :=
  fun _ _ => updateArena_ends fun _ _ => ⟨rfl, rfl, rfl⟩

theorem unseen_updateIndex {change : Occurrences → Option Occurrences} :
    Unseen (updateIndex change) :=
  fun _ _ => updateIndex_ends fun _ _ => ⟨rfl, rfl, rfl⟩

theorem unseen_updateTrail {change : Trail → Option Trail} : Unseen (updateTrail change) :=
  fun _ _ => updateTrail_ends fun _ _ => ⟨rfl, rfl, rfl⟩

theorem unseen_insertClause {redundant : Bool} : Unseen (insertClause literals redundant) := by
  intro engine failed
  by_cases room : engine.arena.slots.size + 1 < UInt32.size
  · refine .of_done (if_pos room) ⟨rfl, rfl, rfl⟩
  · exact .of_stuck (if_neg room)

theorem touching_touch : Touching touch :=
  fun _ _ => .of_done rfl ⟨rfl, rfl, Nat.lt_succ_self _⟩

/-- Every event but a new variable and a new start is a change. -/
theorem touching_handle {event : Event} (counted : event ≠ .newVar)
    (other : event ≠ .reinitialized) : Touching (Engine.handle event) := by
  cases event with
  | newVar => exact absurd rfl counted
  | eliminated name => exact unseen_updateTrail.touching fun _ => touching_touch
  | substituted name => exact unseen_updateTrail.touching fun _ => touching_touch
  | asserted name => exact touching_touch
  | reinitialized => exact absurd rfl other

theorem touching_removeClause : Touching (removeClause handle) :=
  unseen_clause.touching fun _ => unseen_prove.touching fun _ => unseen_updateIndex.touching
    fun _ => unseen_updateArena.touching fun _ => touching_touch

theorem touching_removeWithRecord : Touching (removeWithRecord handle literal) := by
  refine unseen_clause.touching fun clause => ?_
  split
  · exact touching_removeClause
  · exact unseen_pushRecord.touching fun _ => touching_removeClause

/-- A literal that is assigned is counted; if it has a value nothing is done. -/
theorem counted_assignUnit : Counted (assignUnit literal) := by
  intro engine
  unfold assignUnit
  refine .seq (.read fun value valued => ?_)
  match value with
  | some true => exact .pure (.refl _)
  | some false => exact .fail (.refl _)
  | none =>
    refine .seq (.read fun flags _ => ?_)
    split
    · exact .fail (.refl _)
    · have isOpen : engine.trail.value? literal.var = some none := by
        obtain ⟨state, found, same⟩ := Trail.literalValue?_eq_some.1 valued
        unfold Trail.value?
        rw [found]
        cases valueOf : state.value with
        | none => simp [valueOf]
        | some value => simp [valueOf, Literal.valueUnder] at same
      refine .step rfl ?_
      have assigned : (onTrail fun _ _ => Trail.assignAtRoot literal).Ends
          { engine with proof := engine.proof.map fun steps => steps.push (.added [literal]) }
          (fun _ after => engine.Uncounted after) fun _ after => engine.Counts after := by
        refine .within (onTrail_apply _ _) ?_
        refine (Trail.assignAtRoot_of_value isOpen).imp ?_ fun _ _ => False.elim
        exact fun _ _ _ => ⟨rfl, rfl, rfl⟩
      refine assigned.bind fun _ after uncounted => ?_
      have counted : Touching (do
          count fun tally => { tally with units := tally.units + 1 }
          Engine.handle (.asserted literal.var)) :=
        unseen_count.touching fun _ => touching_touch
      exact (counted after _).imp (fun _ _ touches => (uncounted.trans_touches touches).counts)
        fun _ _ => id

/-- A clause that is stored is counted. -/
theorem counted_storeClause {redundant derived : Bool} :
    Counted (storeClause literals redundant derived) := by
  have inserted : ∀ remaining : List Literal, Touching (do
      let handle ← insertClause remaining redundant
      let stored ← clause handle
      updateIndex fun index => index.add handle stored.literals
      touch
      return some handle) := fun remaining =>
    unseen_insertClause.touching fun _ => unseen_clause.touching fun _ =>
      unseen_updateIndex.touching fun _ => touching_touch.unseen fun _ => .pure
  unfold storeClause
  refine .after leaves_get fun engine => ?_
  split
  · exact .fail
  · dsimp only
    split
    · exact .pure
    · refine .after .access fun satisfied => ?_
      split
      · exact .pure
      · refine .after .access fun remaining => ?_
        split
        · exact .fail
        · exact .bind counted_assignUnit fun _ => .pure
        · split
          · exact (unseen_prove.touching fun _ => inserted _).counted
          · exact (inserted _).counted

/-- A clause that gets shorter is counted as a change. -/
theorem counted_strengthen : Counted (strengthen handle literal) := by
  unfold strengthen
  refine .after leaves_clause fun old => ?_
  split
  · exact .bind counted_assignUnit fun _ => touching_removeClause.counted
  · refine Touching.counted ?_
    exact unseen_prove.touching fun _ => unseen_prove.touching fun _ =>
      unseen_updateArena.touching fun _ => unseen_updateIndex.touching fun _ =>
      unseen_count.touching fun _ => touching_touch

/-- Every operation counts what it changes. -/
instance : Upheld Counts where
  removeClause := touching_removeClause.counted
  removeWithRecord := touching_removeWithRecord.counted
  strengthen := counted_strengthen
  makeIrredundant := counted_makeIrredundant
  assignUnit := counted_assignUnit

instance : UpheldByMarks Counts where
  markClause := counted_markClause

end Engine

end CnfSimplifier
