import CnfSimplifier.Proofs.RootPropagation

/-!
# Relations that computations keep

Some relations between the engine before a computation and the engine after it hold
whatever the computation does, whatever state it starts from and however it ends. If such a
relation composes and the operations that change clauses, trail or records keep to it, then
so do the loops that are made of them. So each loop is gone through once, for all these
relations.

Most of these relations are *tolerant*: they hold when clauses are taken away or lose
literals and when root literals are assigned, and they ask nothing about the rest of the
engine. A tolerant relation is kept by every operation of the engine that adds no clause.
-/
namespace CnfSimplifier

variable {σ ρ τ α β : Type} [HasEngine σ] [HasEngine ρ]

/-! ## Computations that leave the engine -/

/-- A computation does not fail, and it leaves the engine. -/
def Leaves (body : Run σ α) : Prop :=
  ∀ (state : σ) (failed : Error → σ → Prop),
    body.Ends state (fun _ after => engineOf after = engineOf state) failed

namespace Leaves

variable {body : Run σ α}

theorem pure {value : α} : Leaves (pure value : Run σ α) := fun _ _ => .pure rfl

theorem read {look : σ → Option α} : Leaves (Run.read look : Run σ α) :=
  fun _ _ => .read fun _ _ => rfl

theorem access {found : Option α} : Leaves (Run.access found : Run σ α) :=
  fun _ _ => .access fun _ _ => rfl

theorem bind {next : α → Run σ β} (first : Leaves body) (rest : ∀ value, Leaves (next value)) :
    Leaves (body >>= next) := by
  intro state failed
  refine (first state failed).bind fun value after same => ?_
  exact (rest value after failed).imp (fun _ _ further => further.trans same) fun _ _ => id

theorem lift {body : Run Engine α} (leaves : Leaves body) :
    Leaves (liftM body : Run (τ × Engine) α) :=
  fun state _ => (Run.Ends.lift (leaves state.2 _)).imp (fun _ _ => And.right) fun _ _ => id

end Leaves

namespace Engine

variable {literal : Literal} {handle : Handle}

/-- Looking at the engine leaves it. -/
theorem leaves_look {question : Engine → α} : Leaves (look question) :=
  fun _ _ => .of_done rfl rfl

theorem leaves_get : Leaves (get : Run Engine Engine) := fun _ _ => .of_done rfl rfl

theorem leaves_clause : Leaves (Engine.clause handle) := .read

theorem leaves_literalValue : Leaves (literalValue literal) := .read

theorem leaves_isRemovable {name : Nat} : Leaves (isRemovable name) := .read

end Engine

/-! ## Computations that keep to a relation -/

/-- Nothing differs in clauses, trail, records and settings, nor does the interrupt flag or
the counter of changes, and what was applied of the trail stays applied. -/
structure Engine.Aside (before after : Engine) : Prop where
  arena : after.arena = before.arena
  trail : after.trail = before.trail
  records : after.records = before.records
  settings : after.settings = before.settings
  interrupted : after.interrupted = before.interrupted
  changes : after.changes = before.changes
  applied : before.applied ≤ after.applied

/-- A relation between engines that composes, and that holds whatever happens aside. -/
class Composable (relation : Engine → Engine → Prop) : Prop where
  aside : ∀ {before after}, before.Aside after → relation before after
  trans : ∀ {before middle after}, relation before middle → relation middle after →
    relation before after

/-- A computation keeps to a relation between engines, however it ends. -/
def Tracks (relation : Engine → Engine → Prop) (body : Run σ α) : Prop :=
  ∀ state, body.Ends state (fun _ after => relation (engineOf state) (engineOf after))
    fun _ after => relation (engineOf state) (engineOf after)

theorem Composable.refl {relation : Engine → Engine → Prop} [composable : Composable relation]
    (engine : Engine) : relation engine engine :=
  composable.aside ⟨rfl, rfl, rfl, rfl, rfl, rfl, le_rfl⟩

namespace Tracks

variable {relation : Engine → Engine → Prop} [composable : Composable relation] {body : Run σ α}

/-- What leaves the engine keeps to a reflexive relation. -/
theorem of_leaves (leaves : Leaves body) : Tracks relation body := by
  intro state
  refine (leaves state _).imp (fun _ after same => ?_) fun _ _ => id
  rw [same]
  exact composable.refl _

/-- A change of parts that do not matter. -/
theorem of_aside {change : σ → σ}
    (aside : ∀ state, (engineOf state).Aside (engineOf (change state))) :
    Tracks relation (modify change : Run σ PUnit) :=
  fun state => .of_done rfl (composable.aside (aside state))

theorem pure {value : α} : Tracks relation (pure value : Run σ α) :=
  fun _ => .pure (composable.refl _)

theorem fail {cause : Error} : Tracks relation (Run.fail cause : Run σ α) :=
  fun _ => .fail (composable.refl _)

omit composable in
theorem stop {why : Breakdown} : Tracks relation (Run.stop why : Run σ α) := fun _ => .stop

/-- What held so far holds from there on. -/
theorem onward {before : Engine} {state : σ} (tracks : Tracks relation body)
    (sofar : relation before (engineOf state)) :
    body.Ends state (fun _ after => relation before (engineOf after))
      fun _ after => relation before (engineOf after) :=
  (tracks state).imp (fun _ _ => composable.trans sofar) fun _ _ => composable.trans sofar

theorem bind {next : α → Run σ β} (first : Tracks relation body)
    (rest : ∀ value, Tracks relation (next value)) : Tracks relation (body >>= next) :=
  fun state => (first state).bind fun value _ reached => (rest value).onward reached

/-- What only looks at the engine comes first. -/
theorem after {first : Run σ α} {next : α → Run σ β} (leaves : Leaves first)
    (rest : ∀ value, Tracks relation (next value)) : Tracks relation (first >>= next) :=
  .bind (.of_leaves leaves) rest

theorem forM {ι : Type} {items : List ι} {turn : ι → Run σ PUnit}
    (tracks : ∀ item, Tracks relation (turn item)) : Tracks relation (items.forM turn) :=
  Run.forM_of_turns (motive := Tracks relation) .pure (fun first rest => first.bind fun _ => rest)
    fun item _ => tracks item

omit composable in
theorem attempt (tracks : Tracks relation body) : Tracks relation body.attempt :=
  fun state => .attempt (tracks state)

omit composable in
theorem lift {body : Run Engine α} (tracks : Tracks relation body) :
    Tracks relation (liftM body : Run (τ × Engine) α) :=
  fun state => (Run.Ends.lift (tracks state.2)).imp (fun _ _ => And.right) fun _ _ => id

omit composable in
/-- Work on another tool and the same engine. -/
theorem within {outer : Run σ α} {inner : Run ρ α} (part : σ → ρ) (put : σ → ρ → σ)
    (tracks : Tracks relation inner)
    (same : ∀ state, outer state = (inner (part state)).mapState (put state))
    (whole : ∀ state, engineOf (part state) = engineOf state)
    (back : ∀ state after, engineOf (put state after) = engineOf after) :
    Tracks relation outer := by
  intro state
  refine .within (same state) ((tracks (part state)).imp ?_ ?_)
  · intro _ after reached
    rwa [back, ← whole]
  · intro _ after reached
    rwa [back, ← whole]

end Tracks

/-! ## Operations of the engine -/

/-- A relation that is kept by the operations that take clauses away. -/
class UpheldByRemovals (relation : Engine → Engine → Prop) : Prop
    extends Composable relation where
  removeClause : ∀ {handle : Handle}, Tracks relation (Engine.removeClause handle)
  removeWithRecord : ∀ {handle : Handle} {literal : Literal},
    Tracks relation (Engine.removeWithRecord handle literal)

/-- Clauses may be shortened as well, and root literals assigned. -/
class Upheld (relation : Engine → Engine → Prop) : Prop
    extends UpheldByRemovals relation where
  strengthen : ∀ {handle : Handle} {literal : Literal},
    Tracks relation (Engine.strengthen handle literal)
  makeIrredundant : ∀ {handle : Handle}, Tracks relation (Engine.makeIrredundant handle)
  assignUnit : ∀ {literal : Literal}, Tracks relation (Engine.assignUnit literal)

/-- A relation that is kept when the marks of a clause change, as long as it stays dead or
alive, and redundant or not. -/
class UpheldByMarks (relation : Engine → Engine → Prop) : Prop extends Composable relation where
  markClause : ∀ {handle : Handle} {change : ClauseFlags → ClauseFlags},
    (∀ flags, (change flags).dead = flags.dead) →
    (∀ flags, (change flags).redundant = flags.redundant) →
    Tracks relation (Engine.markClause handle change)

namespace Engine

variable {relation : Engine → Engine → Prop} {literal : Literal} {handle : Handle}

section Composable

variable [composable : Composable relation]

theorem tracks_prove {step : ProofStep} : Tracks relation (prove step) :=
  .of_aside fun _ => ⟨rfl, rfl, rfl, rfl, rfl, rfl, le_rfl⟩

theorem tracks_count {change : Tally → Tally} : Tracks relation (count change) :=
  .of_aside fun _ => ⟨rfl, rfl, rfl, rfl, rfl, rfl, le_rfl⟩

theorem tracks_tell {notice : Notice} : Tracks relation (tell notice) :=
  .of_aside fun _ => ⟨rfl, rfl, rfl, rfl, rfl, rfl, le_rfl⟩

theorem tracks_updateIndex {change : Occurrences → Option Occurrences} :
    Tracks relation (updateIndex change) :=
  fun _ => updateIndex_ends fun _ _ => composable.aside ⟨rfl, rfl, rfl, rfl, rfl, rfl, le_rfl⟩

/-- Building the graph keeps to every relation. -/
theorem tracks_implications : Tracks relation implications := by
  intro engine
  unfold implications Run.Ends
  dsimp only
  cases Implications.freeBinaries? engine.trail engine.arena.slots.toList with
  | none => trivial
  | some binaries =>
    dsimp only
    cases Implications.build engine.numVars binaries engine.random with
    | done graph random => exact composable.aside ⟨rfl, rfl, rfl, rfl, rfl, rfl, le_rfl⟩
    | failed cause random => exact composable.aside ⟨rfl, rfl, rfl, rfl, rfl, rfl, le_rfl⟩
    | stuck why => trivial

/-- A verdict is no change. -/
theorem tracks_conclude {result : Except Error Unit} : Tracks relation (conclude result) := by
  unfold conclude
  split
  · exact .of_leaves leaves_look
  · split
    · refine .after leaves_get fun engine => ?_
      split
      · exact .bind .pure fun _ => .pure
      · exact .bind (.of_aside fun _ => ⟨rfl, rfl, rfl, rfl, rfl, rfl, le_rfl⟩) fun _ =>
          .bind tracks_prove fun _ => .pure
    · split
      · exact .pure
      · exact .bind tracks_tell fun _ =>
          .bind (.of_aside fun _ => ⟨rfl, rfl, rfl, rfl, rfl, rfl, le_rfl⟩) fun _ => .pure
      · exact .bind tracks_tell fun _ => .pure

end Composable

end Engine

/-! ## Arenas that shrink -/

/-- A live clause counts once. -/
theorem Clause.card_content (clause : Clause) :
    clause.content.card = if clause.isDead then 0 else 1 := by
  unfold content
  split <;> rfl

namespace Arena

variable {arena middle after : Arena} {handle : Handle} {clause : Clause}

/-- Every clause was there before, no shorter, and not dead if it is alive now. -/
structure Shrinks (arena after : Arena) : Prop where
  older : ∀ handle clause, after.get? handle = some clause →
    ∃ old, arena.get? handle = some old ∧ clause.size ≤ old.size
  fewer : after.contents.card ≤ arena.contents.card
  slots : after.slots.size = arena.slots.size

theorem Shrinks.refl (arena : Arena) : Shrinks arena arena :=
  ⟨fun _ clause found => ⟨clause, found, le_rfl⟩, le_rfl, rfl⟩

theorem Shrinks.trans (first : Shrinks arena middle) (second : Shrinks middle after) :
    Shrinks arena after := by
  refine ⟨fun handle clause found => ?_, second.fewer.trans first.fewer,
    second.slots.trans first.slots⟩
  obtain ⟨between, foundBetween, shorter⟩ := second.older handle clause found
  obtain ⟨old, foundOld, short⟩ := first.older handle between foundBetween
  exact ⟨old, foundOld, shorter.trans short⟩

/-- A clause is replaced by one that is no longer, and dead if the clause was. -/
theorem Shrinks.of_set {new : Clause} (found : arena.get? handle = some clause)
    (slots : after.slots = arena.slots.setIfInBounds handle.index new)
    (epoch : after.epoch = arena.epoch) (size : new.size ≤ clause.size)
    (dead : clause.isDead = true → new.isDead = true) : Shrinks arena after := by
  refine ⟨fun other copy foundAfter => ?_, ?_, by rw [slots, Array.size_setIfInBounds]⟩
  · by_cases same : other = handle
    · subst same
      rw [get?_self_of_slots found slots epoch, Option.some.injEq] at foundAfter
      subst foundAfter
      exact ⟨clause, found, size⟩
    · rw [get?_of_slots found slots epoch same] at foundAfter
      exact ⟨copy, foundAfter, le_rfl⟩
  · have exchanged := congrArg Multiset.card (contents_setSlot (get?_eq_some.1 found).2 slots)
    rw [Multiset.card_add, Multiset.card_add, Clause.card_content, Clause.card_content] at exchanged
    cases isDead : clause.isDead with
    | true =>
      rw [isDead, dead isDead] at exchanged
      exact (Nat.add_right_cancel exchanged).le
    | false =>
      have atMost : (if new.isDead then 0 else 1) ≤ 1 := by split <;> omega
      rw [isDead, if_neg Bool.false_ne_true] at exchanged
      omega

/-- Removing a clause shrinks the arena. -/
theorem shrinks_remove (removed : arena.remove handle = some after) : Shrinks arena after := by
  cases found : arena.get? handle with
  | none =>
    rw [remove, found] at removed
    cases removed
  | some clause =>
    obtain ⟨slots, epoch, _⟩ := slots_remove found removed
    exact .of_set found slots epoch (le_refl clause.size) fun _ => rfl

/-- Clauses get shorter by it. -/
theorem shrinks_strengthen {literal : Literal} {length : Nat}
    (changed : arena.strengthen handle literal = some (length, after)) : Shrinks arena after := by
  cases found : arena.get? handle with
  | none =>
    rw [strengthen, found] at changed
    cases changed
  | some clause =>
    by_cases inside : literal ∈ clause.literals
    · obtain ⟨shorter, literals, dead, _, slots, epoch, _⟩ := slots_strengthen found inside changed
      refine .of_set found slots epoch ?_ fun isDead => dead.trans isDead
      change shorter.literals.length ≤ clause.literals.length
      rw [literals]
      exact List.length_erase_le
    · have absent : ¬ clause.contains literal = true := by simpa [Clause.contains] using inside
      simp only [strengthen, found, if_neg absent, Option.some.injEq, Prod.mk.injEq] at changed
      rw [← changed.2]
      exact .refl arena

/-- Clauses that are marked stay. -/
theorem shrinks_mark {change : ClauseFlags → ClauseFlags}
    (dead : ∀ flags, flags.dead = true → (change flags).dead = true)
    (marked : arena.mark handle change = some after) : Shrinks arena after := by
  unfold mark at marked
  split at marked
  · cases marked
  next clause found =>
    cases marked
    let new := { clause with flags := change clause.flags }
    exact .of_set found (rfl : _ = arena.slots.setIfInBounds _ new) rfl (le_refl clause.size)
      (dead clause.flags)

/-- Nothing but marks differs. -/
theorem SameClauses.shrinks (same : SameClauses arena after) : Shrinks arena after := by
  refine ⟨fun handle clause found => ?_, (congrArg Multiset.card same.contents).le, same.size⟩
  obtain ⟨current, inSlot⟩ := get?_eq_some.1 found
  obtain ⟨old, foundOld, literals, _⟩ := same.slots _ clause inSlot
  exact ⟨old, get?_eq_some.2 ⟨current.trans same.epoch, foundOld⟩,
    (congrArg List.length literals).le⟩

end Arena

/-! ## Tolerant relations -/

/-- A relation between engines that composes, and holds when clauses are taken away or lose
literals, when a root literal is assigned or refused, and whatever happens to the parts
other than clauses, trail and settings. -/
class Tolerant (relation : Engine → Engine → Prop) : Prop where
  refl : ∀ engine, relation engine engine
  trans : ∀ {before middle after}, relation before middle → relation middle after →
    relation before after
  aside : ∀ {before after : Engine}, after.arena = before.arena → after.trail = before.trail →
    after.settings = before.settings → relation before after
  removes : ∀ {engine : Engine} {handle : Handle} {arena : Arena},
    engine.arena.remove handle = some arena → relation engine { engine with arena := arena }
  strengthens : ∀ {engine : Engine} {handle : Handle} {literal : Literal} {length : Nat}
    {arena : Arena}, engine.arena.strengthen handle literal = some (length, arena) →
    relation engine { engine with arena := arena }
  promotes : ∀ {engine : Engine} {handle : Handle} {arena : Arena},
    engine.arena.makeIrredundant handle = some arena →
    relation engine { engine with arena := arena }
  assigns : ∀ (engine : Engine) (literal : Literal), (Trail.assignAtRoot literal).Ends engine.trail
    (fun _ trail => relation engine { engine with trail := trail })
    fun _ trail => relation engine { engine with trail := trail }

/-- A tolerant relation that also holds when clauses get other marks, other than that for
dead clauses. -/
class TolerantOfMarks (relation : Engine → Engine → Prop) : Prop extends Tolerant relation where
  marks : ∀ {engine : Engine} {handle : Handle} {change : ClauseFlags → ClauseFlags}
    {arena : Arena}, (∀ flags, flags.dead = true → (change flags).dead = true) →
    engine.arena.mark handle change = some arena → relation engine { engine with arena := arena }

/-- What holds whenever the arena shrinks is tolerant. -/
theorem TolerantOfMarks.of_shrinks {relation : Engine → Engine → Prop}
    (refl : ∀ engine, relation engine engine)
    (trans : ∀ {before middle after}, relation before middle → relation middle after →
      relation before after)
    (aside : ∀ {before after : Engine}, after.arena = before.arena → after.trail = before.trail →
      after.settings = before.settings → relation before after)
    (shrinks : ∀ {engine : Engine} {arena : Arena}, engine.arena.Shrinks arena →
      relation engine { engine with arena := arena })
    (assigns : ∀ (engine : Engine) (literal : Literal),
      (Trail.assignAtRoot literal).Ends engine.trail
        (fun _ trail => relation engine { engine with trail := trail })
        fun _ trail => relation engine { engine with trail := trail }) :
    TolerantOfMarks relation where
  refl := refl
  trans := trans
  aside := aside
  removes removed := shrinks (Arena.shrinks_remove removed)
  strengthens changed := shrinks (Arena.shrinks_strengthen changed)
  promotes promoted := shrinks (Arena.sameClauses_makeIrredundant promoted).shrinks
  assigns := assigns
  marks dead marked := shrinks (Arena.shrinks_mark dead marked)

/-- A change of parts other than clauses, trail and settings. -/
theorem Tracks.of_tolerated {relation : Engine → Engine → Prop} [tolerant : Tolerant relation]
    {change : σ → σ} (arena : ∀ state, (engineOf (change state)).arena = (engineOf state).arena)
    (trail : ∀ state, (engineOf (change state)).trail = (engineOf state).trail)
    (settings : ∀ state, (engineOf (change state)).settings = (engineOf state).settings) :
    Tracks relation (modify change : Run σ PUnit) :=
  fun state => .of_done rfl (tolerant.aside (arena state) (trail state) (settings state))

variable {relation : Engine → Engine → Prop} [tolerant : Tolerant relation]

instance : Composable relation where
  aside same := tolerant.aside same.arena same.trail same.settings
  trans := tolerant.trans

namespace Engine

variable {literal : Literal} {handle : Handle}

theorem tracks_touch : Tracks relation touch :=
  .of_tolerated (fun _ => rfl) (fun _ => rfl) fun _ => rfl

theorem tracks_pushRecord {chosen : Literal} {literals : List Literal} :
    Tracks relation (pushRecord chosen literals) :=
  .of_tolerated (fun _ => rfl) (fun _ => rfl) fun _ => rfl

omit tolerant in
/-- The clauses change as the relation allows. -/
theorem tracks_updateArena {change : Arena → Option Arena}
    (keeps : ∀ (engine : Engine) (arena : Arena), change engine.arena = some arena →
      relation engine { engine with arena := arena }) : Tracks relation (updateArena change) := by
  intro engine
  exact updateArena_ends fun arena changed => keeps engine arena changed

/-- An assignment keeps to the relation. -/
theorem tracks_assignUnit : Tracks relation (assignUnit literal) := by
  refine .after leaves_literalValue fun value => ?_
  split
  · exact .pure
  · exact .fail
  refine .after .read fun flags => ?_
  split
  · exact .fail
  have assigns : Tracks relation (onTrail fun _ _ => Trail.assignAtRoot literal) :=
    fun engine => .within (onTrail_apply _ _) (tolerant.assigns engine literal)
  exact .bind tracks_prove fun _ => .bind assigns fun _ =>
    .bind tracks_count fun _ => tracks_touch

/-- A removal keeps to the relation. -/
theorem tracks_removeClause : Tracks relation (removeClause handle) :=
  .after leaves_clause fun _ => .bind tracks_prove fun _ =>
    .bind tracks_updateIndex fun _ =>
      .bind (tracks_updateArena fun _ _ => tolerant.removes) fun _ => tracks_touch

/-- So does a strengthening. -/
theorem tracks_strengthen : Tracks relation (strengthen handle literal) := by
  have shortens : ∀ (engine : Engine) (arena : Arena),
      (engine.arena.strengthen handle literal).map Prod.snd = some arena →
      relation engine { engine with arena := arena } := by
    intro engine arena changed
    obtain ⟨⟨length, _⟩, strengthened, rfl⟩ := Option.map_eq_some_iff.1 changed
    exact tolerant.strengthens strengthened
  refine .after leaves_clause fun old => ?_
  split
  · exact .bind tracks_assignUnit fun _ => tracks_removeClause
  · exact .bind tracks_prove fun _ => .bind tracks_prove fun _ =>
      .bind (tracks_updateArena shortens) fun _ => .bind tracks_updateIndex fun _ =>
        .bind tracks_count fun _ => tracks_touch

end Engine

instance : Upheld relation where
  removeClause := Engine.tracks_removeClause
  removeWithRecord {handle literal} := by
    refine .after Engine.leaves_clause fun removed => ?_
    split
    · exact Engine.tracks_removeClause
    · exact .bind Engine.tracks_pushRecord fun _ => Engine.tracks_removeClause
  strengthen := Engine.tracks_strengthen
  makeIrredundant := Engine.tracks_updateArena fun _ _ => tolerant.promotes
  assignUnit := Engine.tracks_assignUnit

/-- Marks other than that for dead clauses are tolerated. -/
theorem Engine.tracks_markClause {relation : Engine → Engine → Prop}
    [tolerant : TolerantOfMarks relation] {handle : Handle} {change : ClauseFlags → ClauseFlags}
    (dead : ∀ flags, flags.dead = true → (change flags).dead = true) :
    Tracks relation (markClause handle change) := by
  intro engine
  cases marked : engine.arena.mark handle change with
  | none => exact .of_done (markClause_of_none marked) (tolerant.refl engine)
  | some arena => exact .of_done (markClause_of_mark marked) (tolerant.marks dead marked)

instance (relation : Engine → Engine → Prop) [TolerantOfMarks relation] :
    UpheldByMarks relation where
  markClause dead _ := Engine.tracks_markClause fun flags isDead => by
    rw [dead flags, isDead]

end CnfSimplifier
