import CnfSimplifier.Engine
import CnfSimplifier.Proofs.RootAssignment
import CnfSimplifier.Proofs.Steps
import CnfSimplifier.Proofs.Tallies

/-!
# Sound states of the engine

The picture of an engine, and when its parts are in step: every value stands on the
trail, the lists of the index are right, everything is counted right, and the
picture is well formed.

A computation *works* from a state if it leads from a sound state to a sound one
by steps between their pictures, or fails because propagation refutes the formula.
Where clauses may mention removed variables it may fail because of such a variable
too. A failure leaves a sound state as well; but the proof may then have steps for
which nothing was done, or lack some, and a refutation is one of a picture with the
same proof, records and variables.
-/
namespace CnfSimplifier

/-! ## The picture of an engine -/

/-- A state that holds an engine. -/
class HasEngine (σ : Type) where
  engineOf : σ → Engine

export HasEngine (engineOf)

instance : HasEngine Engine := ⟨fun engine => engine⟩

instance {τ : Type} : HasEngine (τ × Engine) := ⟨fun state => state.2⟩

@[simp] theorem engineOf_engine (engine : Engine) : engineOf engine = engine := rfl

namespace Trail

/-- A variable is protected. -/
def Frozen (trail : Trail) (name : Nat) : Prop :=
  ∃ flags, trail.flags? name = some flags ∧ flags.frozen = true

/-- A variable is eliminated or substituted. -/
def Removed (trail : Trail) (name : Nat) : Prop :=
  ∃ flags, trail.flags? name = some flags ∧ flags.isRemoved = true

/-- A variable is eliminated. -/
def Eliminated (trail : Trail) (name : Nat) : Prop :=
  ∃ flags, trail.flags? name = some flags ∧ flags.eliminated = true

/-- A variable is substituted. -/
def Substituted (trail : Trail) (name : Nat) : Prop :=
  ∃ flags, trail.flags? name = some flags ∧ flags.substituted = true

/-- Whether a variable is substituted is read off its marks. -/
theorem substituted_congr {trail after : Trail} {name : Nat}
    (same : after.flags? name = trail.flags? name) :
    after.Substituted name ↔ trail.Substituted name := by
  unfold Substituted
  rw [same]

/-- A substituted variable is gone. -/
theorem Substituted.removed {trail : Trail} {name : Nat} (substituted : trail.Substituted name) :
    trail.Removed name := by
  obtain ⟨flags, known, isSubstituted⟩ := substituted
  exact ⟨flags, known, by simp [VarFlags.isRemoved, isSubstituted]⟩

/-- The eliminated and the substituted variables are counted right, and no variable
is both. -/
structure Accounts (trail : Trail) : Prop where
  eliminated : trail.eliminated = (trail.vars.map VarState.flags).countP VarFlags.eliminated
  substituted : trail.substituted = (trail.vars.map VarState.flags).countP VarFlags.substituted
  apart : ∀ name flags, trail.flags? name = some flags →
    ¬ (flags.eliminated = true ∧ flags.substituted = true)

namespace SameFlags

variable {trail after : Trail}

theorem frozen (same : trail.SameFlags after) : after.Frozen = trail.Frozen := by
  funext name
  unfold Trail.Frozen
  rw [same.flags]

theorem removed (same : trail.SameFlags after) : after.Removed = trail.Removed := by
  funext name
  unfold Trail.Removed
  rw [same.flags]

theorem numVars (same : trail.SameFlags after) : after.numVars = trail.numVars := by
  unfold Trail.numVars
  rw [same.size]

/-- The same marks account for the same variables. -/
theorem accounts (same : trail.SameFlags after) (accounts : trail.Accounts) : after.Accounts where
  eliminated := by rw [same.map_flags, same.eliminated, accounts.eliminated]
  substituted := by rw [same.map_flags, same.substituted, accounts.substituted]
  apart name flags found := accounts.apart name flags (by rwa [← same.flags])

end SameFlags

end Trail

namespace Engine

/-- What matters of an engine. -/
def picture (engine : Engine) : Picture where
  numVars := engine.numVars
  frozen := engine.trail.Frozen
  removed := engine.trail.Removed
  root := engine.trail.facts
  clauses := engine.arena.contents
  irredundant := engine.arena.Irredundant
  records := engine.records
  log := engine.proof.map Array.toList

/-- The irredundant clauses, and a unit for every root literal. -/
def core (engine : Engine) : Set (List Literal) :=
  {literals | (∃ handle clause, engine.arena.live? handle = some clause ∧
      clause.isRedundant = false ∧ clause.literals = literals) ∨
    ∃ literal ∈ engine.trail.facts, literals = [literal]}

/-- The redundant clauses follow from the others. -/
def Supported (engine : Engine) : Prop :=
  ∀ values, (∀ literals ∈ engine.core, ClauseHolds values literals) → engine.picture.Holds values

/-- Without removal: variables and records stay, and the irredundant clauses give
what they gave. -/
structure Retains (before after : Engine) : Prop where
  flags : before.trail.SameFlags after.trail
  records : after.records = before.records
  pairs : ∀ a b, (∃ part ∈ before.core, part ⊆ [a, b]) → ∃ part ∈ after.core, part ⊆ [a, b]
  supported : before.Supported → after.Supported

/-- All root literals up to the applied ones are out of the clauses. -/
structure Settled (engine : Engine) : Prop where
  orderly : engine.trail.Orderly
  settles : engine.picture.Settles engine.applied

/-- The parts of an engine are in step. -/
structure InStep (engine : Engine) : Prop
    extends Filed (2 * engine.trail.vars.size) engine.index engine.arena where
  trail : engine.trail.Sound
  /-- What is still to be applied is a fact. -/
  due : ∀ literal ∈ engine.trail.literals.toList.drop engine.applied, literal ∈ engine.trail.facts

variable {before middle after : Engine}

theorem InStep.of_same (inStep : before.InStep) (arena : after.arena = before.arena)
    (index : after.index = before.index) (trail : after.trail = before.trail)
    (applied : after.applied = before.applied) : after.InStep := by
  obtain ⟨filed, sound, due⟩ := inStep
  rw [← arena, ← index, ← trail] at filed
  rw [← trail] at sound
  rw [← trail, ← applied] at due
  exact ⟨filed, sound, due⟩

namespace Retains

theorem refl (engine : Engine) : Retains engine engine :=
  ⟨.refl _, rfl, fun _ _ => id, id⟩

theorem trans (first : Retains before middle) (second : Retains middle after) :
    Retains before after :=
  ⟨first.flags.trans second.flags, second.records.trans first.records,
    fun a b known => second.pairs a b (first.pairs a b known),
    fun supported => second.supported (first.supported supported)⟩

/-- A part of every irredundant clause stays. -/
theorem of_covers (flags : before.trail.SameFlags after.trail)
    (records : after.records = before.records) (covers : Covers after.core before.core)
    (forward : ∀ values, before.picture.Holds values → after.picture.Holds values) :
    Retains before after := by
  refine ⟨flags, records, ?_, fun supported values holds => ?_⟩
  · rintro a b ⟨part, member, small⟩
    obtain ⟨smaller, kept, below⟩ := covers part member
    exact ⟨smaller, kept, fun literal inside => small (below inside)⟩
  · refine forward values (supported values fun literals member => ?_)
    obtain ⟨smaller, kept, below⟩ := covers literals member
    exact (holds smaller kept).of_subset fun literal inside => below inside

/-- All irredundant clauses stay. -/
theorem of_subset (flags : before.trail.SameFlags after.trail)
    (records : after.records = before.records) (subset : before.core ⊆ after.core)
    (forward : ∀ values, before.picture.Holds values → after.picture.Holds values) :
    Retains before after :=
  of_covers flags records (.of_subset subset) forward

end Retains

/-- What a computation keeps, whether it is done or failed. -/
structure Goes (scope : Scope) (before after : Engine) : Prop where
  inStep : after.InStep
  retains : scope ≠ .removal → before.Retains after
  accounts : before.trail.Accounts → after.trail.Accounts
  orderly : before.trail.Orderly → after.trail.Orderly
  /-- If no list of the index is to be cleaned, none has to be afterwards. -/
  clean : before.index.dirty = #[] → after.index.dirty = #[]
  unsat : after.unsat = before.unsat
  poisoned : after.poisoned = before.poisoned
  settings : after.settings = before.settings

namespace Goes

variable {scope : Scope}

theorem refl (inStep : before.InStep) : Goes scope before before :=
  ⟨inStep, fun _ => .refl _, id, id, id, rfl, rfl, rfl⟩

theorem trans (first : Goes scope before middle) (second : Goes scope middle after) :
    Goes scope before after where
  inStep := second.inStep
  retains narrow := (first.retains narrow).trans (second.retains narrow)
  accounts accounts := second.accounts (first.accounts accounts)
  orderly orderly := second.orderly (first.orderly orderly)
  clean clean := second.clean (first.clean clean)
  unsat := second.unsat.trans first.unsat
  poisoned := second.poisoned.trans first.poisoned
  settings := second.settings.trans first.settings

/-- What propagation goes through is allowed in every scope. -/
theorem widen (goes : Goes .propagation before after) : Goes scope before after :=
  { goes with retains := fun _ => goes.retains (by decide) }

/-- What is allowed in a scope is allowed in the widest one. -/
theorem to_removal (goes : Goes scope before after) : Goes .removal before after :=
  { goes with retains := fun narrow => absurd rfl narrow }

end Goes

variable [Realm]

/-- Which variables are present is told by the number of variables and their flags. -/
theorem present_of_sameFlags (same : before.trail.SameFlags after.trail)
    {name : Nat} (present : before.picture.Present name) : after.picture.Present name := by
  change 0 < name ∧ name ≤ after.trail.numVars ∧
    (¬ after.trail.Removed name ∨ Realm.Lenient) ∧ Realm.Has name
  rw [same.numVars, same.removed]
  exact present

/-- The parts of an engine are in step, and clauses and root have their form. -/
structure Sound (engine : Engine) : Prop extends InStep engine where
  wellFormed : engine.picture.WellFormed

/-- A sound engine goes over to a sound one by steps. -/
structure Leads (scope : Scope) (before after : Engine) : Prop extends Goes scope before after where
  steps : Steps scope before.picture after.picture
  /-- Applied root literals stay applied. -/
  applied : before.Settled → after.picture.Settles after.applied

/-- Propagation refutes a formula that steps lead to and that has the proof, the
records and the variables of an engine. -/
def Refuted (scope : Scope) (before after : Engine) : Prop :=
  ∃ picture, Steps scope before.picture picture ∧ Rup picture.formula [] ∧
    picture.log = after.picture.log ∧ picture.records = after.picture.records ∧
    picture.removed = after.picture.removed ∧ picture.frozen = after.picture.frozen ∧
    picture.numVars = after.picture.numVars

/-- A computation failed because the formula is refuted, or because a removed
variable is in the way. But for the proof, steps lead to its last state. -/
structure Fails (scope : Scope) (before after : Engine) (cause : Error) : Prop
    extends Goes scope before after where
  reached : ∃ log, Steps scope before.picture { after.picture with log := log }
  reason : (cause.isUnsat = true ∧ Refuted scope before after) ∨
    (Realm.Lenient ∧ ∃ message, cause = .invariantBroken message)

variable {scope : Scope} {cause : Error}

/-- A settled engine stays settled. -/
theorem Leads.settled (leads : Leads scope before after) (settled : before.Settled) :
    after.Settled := ⟨leads.orderly settled.orderly, leads.applied settled⟩

/-- A sound engine stays sound. -/
theorem Leads.sound (leads : Leads scope before after) (sound : before.Sound) : after.Sound :=
  ⟨leads.inStep, Steps.wellFormed leads.steps sound.wellFormed⟩

/-- A failure leaves a sound state. -/
theorem Fails.sound (fails : Fails scope before after cause) (sound : before.Sound) :
    after.Sound := by
  obtain ⟨log, steps⟩ := fails.reached
  have wellFormed := Steps.wellFormed steps sound.wellFormed
  exact ⟨fails.inStep, fun literals clause => (wellFormed.admits literals clause).of_same_vars rfl rfl,
    wellFormed.known, wellFormed.distinct⟩

theorem Leads.refl (sound : before.Sound) : Leads scope before before :=
  ⟨.refl sound.toInStep, .refl, Settled.settles⟩

/-- Steps that leave the number of applied root literals. -/
theorem Leads.of_steps (goes : Goes scope before after)
    (steps : Steps scope before.picture after.picture)
    (applied : after.applied = before.applied) : Leads scope before after :=
  ⟨goes, steps, fun settled => applied ▸ Steps.settles steps settled.settles⟩

theorem Leads.trans (first : Leads scope before middle) (second : Leads scope middle after) :
    Leads scope before after :=
  ⟨first.toGoes.trans second.toGoes, first.steps.trans second.steps,
    fun settled => second.applied (first.settled settled)⟩

/-- A refutation after steps is one from the start. -/
theorem Refuted.after_steps (steps : Steps scope before.picture middle.picture)
    (refuted : Refuted scope middle after) : Refuted scope before after := by
  obtain ⟨picture, further, rest⟩ := refuted
  exact ⟨picture, steps.trans further, rest⟩

/-- A failure may come after what leads on. -/
theorem Leads.then_fails (first : Leads scope before middle)
    (second : Fails scope middle after cause) : Fails scope before after cause := by
  obtain ⟨goes, ⟨log, steps⟩, reason⟩ := second
  refine ⟨first.toGoes.trans goes, ⟨log, first.steps.trans steps⟩, reason.imp_left ?_⟩
  rintro ⟨isUnsat, refuted⟩
  exact ⟨isUnsat, refuted.after_steps first.steps⟩

/-- A refuted formula is a reason to fail where it stands. -/
theorem Fails.of_refuted (sound : before.Sound) (isUnsat : cause.isUnsat = true)
    (refuted : Rup before.picture.formula []) : Fails scope before before cause :=
  ⟨.refl sound.toInStep, ⟨_, .refl⟩,
    .inl ⟨isUnsat, before.picture, .refl, refuted, rfl, rfl, rfl, rfl, rfl⟩⟩

/-- A removed variable is a reason to fail where it stands. -/
theorem Fails.of_removed {message : String} (sound : before.Sound) (lenient : Realm.Lenient) :
    Fails scope before before (.invariantBroken message) :=
  ⟨.refl sound.toInStep, ⟨_, .refl⟩, .inr ⟨lenient, message, rfl⟩⟩

theorem Leads.widen (leads : Leads .propagation before after) : Leads scope before after :=
  ⟨leads.toGoes.widen, Steps.of_propagation leads.steps, leads.applied⟩

theorem Fails.widen (fails : Fails .propagation before after cause) :
    Fails scope before after cause := by
  obtain ⟨goes, ⟨log, steps⟩, reason⟩ := fails
  refine ⟨goes.widen, ⟨log, Steps.of_propagation steps⟩, reason.imp_left ?_⟩
  rintro ⟨isUnsat, picture, reached, rest⟩
  exact ⟨isUnsat, picture, Steps.of_propagation reached, rest⟩

theorem Leads.to_removal (leads : Leads scope before after) : Leads .removal before after :=
  ⟨leads.toGoes.to_removal, Steps.to_removal leads.steps, leads.applied⟩

theorem Refuted.to_removal (refuted : Refuted scope before after) :
    Refuted .removal before after := by
  obtain ⟨picture, steps, rest⟩ := refuted
  exact ⟨picture, Steps.to_removal steps, rest⟩

theorem Fails.to_removal (fails : Fails scope before after cause) :
    Fails .removal before after cause := by
  obtain ⟨goes, ⟨log, steps⟩, reason⟩ := fails
  refine ⟨goes.to_removal, ⟨log, Steps.to_removal steps⟩, reason.imp_left ?_⟩
  rintro ⟨isUnsat, refuted⟩
  exact ⟨isUnsat, refuted.to_removal⟩

end Engine

/-! ## Computations that work -/

variable [Realm] {σ α β : Type} [HasEngine σ]

/-- From a sound state a computation goes by steps to a sound state of which
something holds, or it fails because the formula is refuted. -/
def Works (scope : Scope) (body : Run σ α) (state : σ) (post : α → σ → Prop) : Prop :=
  (engineOf state).Sound → body.Ends state
    (fun value after => (engineOf state).Leads scope (engineOf after) ∧ post value after)
    (fun cause after => (engineOf state).Fails scope (engineOf after) cause)

namespace Works

variable {scope : Scope} {body : Run σ α} {state : σ} {post : α → σ → Prop} {next : α → Run σ β}
  {last : β → σ → Prop}

theorem imp {less : α → σ → Prop} (works : Works scope body state post)
    (holds : ∀ value after, post value after → less value after) :
    Works scope body state less := by
  intro sound
  refine (works sound).imp (fun value after => ?_) fun cause after fails => fails
  rintro ⟨leads, reached⟩
  exact ⟨leads, holds value after reached⟩

/-- That a computation leads to its last state may be used. -/
theorem leads (works : Works scope body state post) : Works scope body state fun value after =>
    (engineOf state).Leads scope (engineOf after) ∧ post value after := by
  intro sound
  refine (works sound).imp (fun value after => ?_) fun cause after fails => fails
  rintro ⟨leads, reached⟩
  exact ⟨leads, leads, reached⟩

/-- More is known of the last state. -/
theorem and_ends {further : α → σ → Prop} {failed : Error → σ → Prop}
    (works : Works scope body state post) (ends : body.Ends state further failed) :
    Works scope body state fun value after => post value after ∧ further value after := by
  intro sound
  refine ((works sound).and ends).imp (fun value after => ?_) fun _ _ => And.left
  rintro ⟨⟨leads, reached⟩, holds⟩
  exact ⟨leads, reached, holds⟩

/-- The soundness of the state may be used. -/
theorem of_sound (works : (engineOf state).Sound → Works scope body state post) :
    Works scope body state post := fun sound => works sound sound

theorem pure {value : α} (holds : post value state) :
    Works scope (pure value : Run σ α) state post :=
  fun sound => .pure ⟨.refl sound, holds⟩

/-- A computation that does not touch the engine. -/
theorem of_done {value : α} {after : σ} (ended : body state = .done value after)
    (same : engineOf after = engineOf state) (holds : post value after) :
    Works scope body state post := by
  intro sound
  refine .of_done ended ⟨?_, holds⟩
  rw [same]
  exact .refl sound

/-- Work goes on from a state that was led to. -/
theorem resume {middle : σ} (works : Works scope body middle post) (sound : (engineOf state).Sound)
    (leads : (engineOf state).Leads scope (engineOf middle)) :
    body.Ends middle
      (fun value after => (engineOf state).Leads scope (engineOf after) ∧ post value after)
      (fun cause after => (engineOf state).Fails scope (engineOf after) cause) := by
  refine (works (leads.sound sound)).imp (fun value after => ?_)
    fun cause after fails => leads.then_fails fails
  rintro ⟨further, reached⟩
  exact ⟨leads.trans further, reached⟩

/-- Parts that work follow one another. -/
theorem bind (first : Works scope body state post)
    (rest : ∀ value after, (engineOf state).Leads scope (engineOf after) → post value after →
      Works scope (next value) after last) : Works scope (body >>= next) state last := by
  intro sound
  refine (first sound).bind fun value after ⟨leads, holds⟩ => ?_
  exact (rest value after leads holds).resume sound leads

/-- A part that does not touch the engine. -/
theorem step {value : α} {after : σ} (ended : body state = .done value after)
    (same : engineOf after = engineOf state) (rest : Works scope (next value) after last) :
    Works scope (body >>= next) state last := by
  intro sound
  refine .step ended ?_
  have ends := rest (same ▸ sound)
  rw [same] at ends
  exact ends

/-- A part that only looks. -/
theorem look {found : α → Prop} (looks : body.Looks state found)
    (rest : ∀ value, found value → Works scope (next value) state last) :
    Works scope (body >>= next) state last :=
  fun sound => looks.bind fun value holds => rest value holds sound

theorem stop {why : Breakdown} : Works scope (Run.stop why : Run σ α) state post :=
  fun _ => .stop

/-- A refuted formula lets a computation fail. -/
theorem fail {cause : Error} (isUnsat : cause.isUnsat = true)
    (refuted : Rup (engineOf state).picture.formula []) :
    Works scope (Run.fail cause : Run σ α) state post :=
  fun sound => .fail (.of_refuted sound isUnsat refuted)

theorem widen (works : Works .propagation body state post) : Works scope body state post := by
  intro sound
  refine (works sound).imp (fun value after => ?_) fun cause after fails => fails.widen
  rintro ⟨leads, holds⟩
  exact ⟨leads.widen, holds⟩

theorem to_removal (works : Works scope body state post) : Works .removal body state post := by
  intro sound
  refine (works sound).imp (fun value after => ?_) fun cause after fails => fails.to_removal
  rintro ⟨leads, holds⟩
  exact ⟨leads.to_removal, holds⟩

/-- What every turn of a loop keeps holds at its end. -/
theorem forM {ι : Type} {items : List ι} {turn : ι → Run σ PUnit} {keeps : σ → Prop}
    (start : keeps state)
    (step : ∀ item ∈ items, ∀ state, keeps state →
      Works scope (turn item) state fun _ after => keeps after) :
    Works scope (items.forM turn) state fun _ after => keeps after :=
  Run.forM_of_turns (motive := fun body => ∀ state, keeps state →
      Works scope body state fun _ after => keeps after)
    (fun _ held => .pure held)
    (fun first rest state held => (first state held).bind fun _ after _ => rest after)
    step state start

/-- How a computation on the engine alone works. -/
theorem of_ends {body : Run Engine α} {engine : Engine} {post : α → Engine → Prop}
    (ends : engine.Sound → body.Ends engine
      (fun value after => engine.Leads scope after ∧ post value after)
      (fun cause after => engine.Fails scope after cause)) :
    Works scope body engine post := ends

/-- Work inside a larger state that has the same engine. -/
theorem within {ρ : Type} [HasEngine ρ] {inner : Run ρ α} {start : ρ} {put : ρ → σ}
    {post : α → ρ → Prop} {outerPost : α → σ → Prop}
    (same : body state = (inner start).mapState put)
    (whole : engineOf state = engineOf start)
    (back : ∀ part, engineOf (put part) = engineOf part)
    (works : Works scope inner start post)
    (holds : ∀ value part, post value part → outerPost value (put part)) :
    Works scope body state outerPost := by
  intro sound
  refine .within same ?_
  rw [whole] at sound ⊢
  refine (works sound).imp (fun value after => ?_) fun cause after fails => ?_
  · rintro ⟨leads, reached⟩
    rw [back]
    exact ⟨leads, holds value after reached⟩
  · rw [back]
    exact fails

end Works

end CnfSimplifier
