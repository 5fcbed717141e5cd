import CnfSimplifier.Proofs.Endurance

/-!
# Accesses inside the tables

The engine reads and writes its tables at literals and handles. A literal of a variable
of the engine has its entries in the index and in the trail, and a handle that was ever
given away in an epoch finds its clause as long as the epoch lasts. So work that starts
from handles of live clauses never reaches outside, whatever it does to the formula on
the way: it need not be sound in between.

What stays in such work is a property of the states, not of the course it takes. It is
stated relative to the engine at the beginning, the *base*, whose handles stay good.
-/
namespace CnfSimplifier

namespace Run

variable {σ τ α β : Type} {body : Run σ α} {state : σ} {done : α → σ → Prop}
  {failed : Error → σ → Prop}

/-- A run gets stuck for admitted reasons only, and it is said how it ends otherwise. -/
structure Meets (admitted : Breakdown → Prop) (body : Run σ α) (state : σ) (done : α → σ → Prop)
    (failed : Error → σ → Prop) : Prop where
  ends : body.Ends state done failed
  safe : body.Safe admitted state

/-- A run makes no access outside a table, and it is said how it ends. -/
abbrev Lands (body : Run σ α) (state : σ) (done : α → σ → Prop) (failed : Error → σ → Prop) : Prop :=
  Meets (· ≠ .badAccess) body state done failed

/-- A run can lack nothing but names for clauses and variables, and it is said how it ends. -/
abbrev Fares (body : Run σ α) (state : σ) (done : α → σ → Prop) (failed : Error → σ → Prop) : Prop :=
  Meets (· = .outOfSpace) body state done failed

namespace Meets

variable {admitted : Breakdown → Prop}

theorem pure {value : α} (holds : done value state) :
    (pure value : Run σ α).Meets admitted state done failed := ⟨.pure holds, .pure⟩

theorem fail {cause : Error} (holds : failed cause state) :
    (Run.fail cause : Run σ α).Meets admitted state done failed := ⟨.fail holds, .fail⟩

theorem of_done {value : α} {after : σ} (ended : body state = .done value after)
    (holds : done value after) : body.Meets admitted state done failed := ⟨.of_done ended holds, .of_done ended⟩

theorem bind {next : α → Run σ β} {last : β → σ → Prop} (first : body.Meets admitted state done failed)
    (rest : ∀ value after, done value after → (next value).Meets admitted after last failed) :
    (body >>= next).Meets admitted state last failed where
  ends := first.ends.bind fun value after holds => (rest value after holds).ends
  safe := first.safe.bind first.ends fun value after holds => (rest value after holds).safe

/-- A part that is known to be done hands its value and state on. -/
theorem step {next : α → Run σ β} {last : β → σ → Prop} {value : α} {after : σ}
    (ended : body state = .done value after) (rest : (next value).Meets admitted after last failed) :
    (body >>= next).Meets admitted state last failed :=
  ⟨.step ended rest.ends, .step ended rest.safe⟩

/-- A table is read at a place where it has an entry, unless a bad access is admitted. -/
theorem access {found : Option α} {next : α → Run σ β} {last : β → σ → Prop}
    (there : found = none → admitted .badAccess)
    (rest : ∀ value, found = some value → (next value).Meets admitted state last failed) :
    (Run.access found >>= next).Meets admitted state last failed := by
  cases found with
  | some value => exact .step rfl (rest value rfl)
  | none => exact ⟨trivial, fun why stuck => by cases stuck; exact there rfl⟩

/-- A part that only looks. -/
theorem look {next : α → Run σ β} {found : α → Prop} {last : β → σ → Prop}
    (safe : body.Safe admitted state) (looks : body.Looks state found)
    (rest : ∀ value, found value → (next value).Meets admitted state last failed) :
    (body >>= next).Meets admitted state last failed :=
  ⟨looks.bind fun value holds => (rest value holds).ends,
    safe.look looks fun value holds => (rest value holds).safe⟩

/-- What every turn keeps holds at the end. -/
theorem forM {ι : Type} {items : List ι} {turn : ι → Run σ PUnit} {keeps : σ → Prop}
    (holds : keeps state)
    (turns : ∀ item ∈ items, ∀ state, keeps state →
      (turn item).Meets admitted state (fun _ after => keeps after) failed) :
    (items.forM turn).Meets admitted state (fun _ after => keeps after) failed :=
  forM_of_turns (motive := fun body => ∀ state, keeps state →
      body.Meets admitted state (fun _ after => keeps after) failed)
    (fun _ held => .pure held) (fun first rest state held => (first state held).bind fun _ => rest)
    turns state holds

theorem imp {done' : α → σ → Prop} {failed' : Error → σ → Prop}
    (meets : body.Meets admitted state done failed)
    (whenDone : ∀ value after, done value after → done' value after)
    (whenFailed : ∀ cause after, failed cause after → failed' cause after) :
    body.Meets admitted state done' failed' := ⟨meets.ends.imp whenDone whenFailed, meets.safe⟩

theorem of_returns (returns : body.Returns state done) : body.Meets admitted state done failed := by
  obtain ⟨value, after, ended, holds⟩ := returns
  exact .of_done ended holds

/-- Nothing is asked about why a run gets stuck. -/
theorem of_ends (ends : body.Ends state done failed) : body.Meets (fun _ => True) state done failed :=
  ⟨ends, fun _ _ => trivial⟩

/-- An attempt does not fail. -/
theorem attempt {after : Except Error α → σ → Prop} {never : Error → σ → Prop}
    (meets : body.Meets admitted state (fun value => after (.ok value)) fun cause => after (.error cause)) :
    body.attempt.Meets admitted state after never :=
  ⟨.attempt meets.ends, meets.safe.attempt⟩

/-- What is said of a run in any case is said of one that may get stuck as well. -/
theorem and_ends {further : α → σ → Prop} {otherwise : Error → σ → Prop}
    (meets : body.Meets admitted state done failed) (ends : body.Ends state further otherwise) :
    body.Meets admitted state (fun value after => done value after ∧ further value after)
      fun cause after => failed cause after ∧ otherwise cause after :=
  ⟨meets.ends.and ends, meets.safe⟩

/-- Work on a part of a state makes the accesses that it makes on the part alone. -/
theorem within {whole : Run τ α} {outer : τ} {put : σ → τ} {doneOuter : α → τ → Prop}
    {failedOuter : Error → τ → Prop} (same : whole outer = (body state).mapState put)
    (meets : body.Meets admitted state (fun value after => doneOuter value (put after))
      fun cause after => failedOuter cause (put after)) :
    whole.Meets admitted outer doneOuter failedOuter :=
  ⟨.within same meets.ends, .within same meets.safe⟩

/-- Work on the engine leaves the rest. -/
theorem lift {body : Run Engine α} {state : τ × Engine} {done : α → Engine → Prop}
    {failed : Error → Engine → Prop} (meets : body.Meets admitted state.2 done failed) :
    (liftM body : Run (τ × Engine) α).Meets admitted state
      (fun value after => after.1 = state.1 ∧ done value after.2)
      fun cause after => after.1 = state.1 ∧ failed cause after.2 :=
  .within rfl (meets.imp (fun _ _ holds => ⟨rfl, holds⟩) fun _ _ holds => ⟨rfl, holds⟩)

end Meets

/-- From any state of a kind a run makes no access outside a table, it ends in a state of
that kind, and something holds of its value. -/
def StaysIn (keeps : σ → Prop) (body : Run σ α) (found : α → Prop) : Prop :=
  ∀ state, keeps state → body.Lands state (fun value after => keeps after ∧ found value)
    fun _ after => keeps after

namespace StaysIn

variable {keeps : σ → Prop} {found : α → Prop}

theorem pure {value : α} (holds : found value) : StaysIn keeps (pure value : Run σ α) found :=
  fun _ kept => .pure ⟨kept, holds⟩

theorem bind {next : α → Run σ β} {last : β → Prop} (first : StaysIn keeps body found)
    (rest : ∀ value, found value → StaysIn keeps (next value) last) :
    StaysIn keeps (body >>= next) last :=
  fun state kept => (first state kept).bind fun value after ⟨kept, holds⟩ =>
    rest value holds after kept

/-- A value at hand is handed on. -/
theorem given {next : α → Run σ β} {last : β → Prop} {value : α}
    (rest : StaysIn keeps (next value) last) : StaysIn keeps (Pure.pure value >>= next) last :=
  fun state kept => .step rfl (rest state kept)

theorem ite {condition : Prop} [Decidable condition] {other : Run σ α}
    (yes : StaysIn keeps body found) (no : StaysIn keeps other found) :
    StaysIn keeps (if condition then body else other) found := by
  split
  · exact yes
  · exact no

theorem imp {weaker : α → Prop} (stays : StaysIn keeps body found)
    (implies : ∀ value, found value → weaker value) : StaysIn keeps body weaker :=
  fun state kept => (stays state kept).imp (fun value _ held => ⟨held.1, implies value held.2⟩)
    fun _ _ => id

theorem forM {ι : Type} {items : List ι} {turn : ι → Run σ PUnit}
    (turns : ∀ item ∈ items, StaysIn keeps (turn item) fun _ => True) :
    StaysIn keeps (items.forM turn) fun _ => True := by
  induction items with
  | nil => exact .pure trivial
  | cons item rest ih =>
    obtain ⟨first, others⟩ := List.forall_mem_cons.1 turns
    exact first.bind fun _ _ => ih others

theorem read {look : σ → Option α}
    (there : ∀ state, keeps state → ∃ value, look state = some value ∧ found value) :
    StaysIn keeps (Run.read look) found := by
  intro state kept
  obtain ⟨value, isThere, holds⟩ := there state kept
  exact .of_done (read_of_eq_some isThere) ⟨kept, holds⟩

theorem access {value : α} {table : Option α} (there : table = some value) :
    StaysIn keeps (Run.access table : Run σ α) fun seen => seen = value :=
  fun _ kept => .of_done (access_of_eq_some there) ⟨kept, rfl⟩

theorem update {change : σ → Option σ}
    (there : ∀ state, keeps state → ∃ after, change state = some after ∧ keeps after) :
    StaysIn keeps (Run.update change) fun _ => True := by
  intro state kept
  obtain ⟨after, changed, keptAfter⟩ := there state kept
  exact .of_done (update_of_eq_some changed) ⟨keptAfter, trivial⟩

theorem modify {change : σ → σ} (kept : ∀ state, keeps state → keeps (change state)) :
    StaysIn keeps (modify change : Run σ PUnit) fun _ => True :=
  fun state now => .of_done rfl ⟨kept state now, trivial⟩

/-- Work on a part of a state, if it leaves what holds of the rest. -/
theorem within {whole : Run τ α} {inner : σ → Prop} {outer : τ → Prop} (part : τ → σ)
    (put : τ → σ → τ) (same : ∀ state, whole state = (body (part state)).mapState (put state))
    (inside : ∀ state, outer state → inner (part state))
    (back : ∀ state after, outer state → inner after → outer (put state after))
    (stays : StaysIn inner body found) : StaysIn outer whole found :=
  fun state kept => .within (same state) ((stays _ (inside state kept)).imp
    (fun _ after held => ⟨back state after kept held.1, held.2⟩)
    fun _ after held => back state after kept held)

theorem lift {body : Run Engine α} {inner : Engine → Prop} {outer : τ × Engine → Prop}
    (stays : StaysIn inner body found) (inside : ∀ state, outer state → inner state.2)
    (back : ∀ state after, outer state → inner after → outer (state.1, after)) :
    StaysIn outer (liftM body : Run (τ × Engine) α) found :=
  within Prod.snd (fun state after => (state.1, after)) (fun _ => rfl) inside back stays

end StaysIn

end Run

namespace Engine

variable {base engine middle : Engine} {handle : Handle} {clause : Clause} {literal : Literal}
  {literals : List Literal}

/-! ## Engines with room -/

/-- The handle names a clause, be it dead or alive. -/
def Issued (engine : Engine) (handle : Handle) : Prop :=
  ∃ clause, engine.arena.get? handle = some clause

theorem issued_of_live? (live : (engine.arena.live? handle).isSome = true) : engine.Issued handle := by
  obtain ⟨clause, found⟩ := Option.isSome_iff_exists.1 live
  exact ⟨clause, (Arena.live?_eq_some.1 found).1⟩

theorem issued_of_holds (holds : engine.arena.holds handle literal = true) : engine.Issued handle := by
  obtain ⟨clause, live, _⟩ := Arena.holds_iff.1 holds
  exact ⟨clause, (Arena.live?_eq_some.1 live).1⟩

theorem Endures.issued (endures : base.Endures engine) (issued : base.Issued handle) :
    engine.Issued handle := by
  obtain ⟨clause, found⟩ := issued
  obtain ⟨copy, again, _⟩ := endures.exists_get? found
  exact ⟨copy, again⟩

/-- There are places for all variables of the base, and its clauses are in their slots. -/
structure Firm (base engine : Engine) : Prop extends Roomy engine where
  endures : base.Endures engine
  ranged : engine.Ranged

theorem Roomy.firm (roomy : engine.Roomy) (ranged : engine.Ranged) : Firm engine engine :=
  ⟨roomy, .refl engine, ranged⟩

theorem Firm.self (firm : Firm base engine) : Firm engine engine := firm.toRoomy.firm firm.ranged

theorem Firm.trans (firm : Firm base engine) (further : Firm engine middle) : Firm base middle :=
  ⟨further.toRoomy, firm.endures.trans further.endures, further.ranged⟩

/-- What an issued handle names is over the variables of the base. -/
theorem Firm.exists_clause (firm : Firm base engine) (issued : base.Issued handle) :
    ∃ clause, engine.arena.get? handle = some clause ∧
      ∀ literal ∈ clause.literals, base.Owns literal := by
  obtain ⟨clause, found⟩ := firm.endures.issued issued
  refine ⟨clause, found, fun literal inside => firm.endures.owns.1 ?_⟩
  exact firm.ranged _ clause (Arena.get?_eq_some.1 found).2 literal inside

theorem Firm.var_lt (firm : Firm base engine) (owns : base.Owns literal) :
    literal.var < engine.trail.vars.size := (firm.endures.owns.2 owns).2

theorem Firm.index_lt (firm : Firm base engine) (owns : base.Owns literal) :
    literal.index < engine.index.entries.size := firm.toRoomy.index_lt (firm.var_lt owns)

theorem Owns.complement (owns : base.Owns literal) : base.Owns literal.complement := by
  unfold Owns at *
  rwa [Literal.var_complement owns.1]

/-- What the formula may mention is a variable of the engine. -/
theorem owns_of_present [Realm] (nonempty : 0 < engine.trail.vars.size)
    (present : engine.picture.Present literal.var) : engine.Owns literal :=
  ⟨present.1, Trail.lt_of_le_numVars nonempty present.2.1⟩

/-- Only clauses, index and trail matter. -/
theorem Firm.of_same (firm : Firm base engine) (arena : middle.arena = engine.arena)
    (index : middle.index = engine.index) (trail : middle.trail = engine.trail) :
    Firm base middle := by
  have endures : engine.Endures middle :=
    .of_aside arena trail
  refine ⟨⟨?_, ?_, ?_⟩, firm.endures.trans endures, endures.ranged firm.ranged⟩
  · exact trail ▸ firm.nonempty
  · rw [index, trail]
    exact firm.room
  · exact trail ▸ firm.atRoot

theorem Firm.with_arena (firm : Firm base engine) {arena : Arena}
    (endures : engine.Endures { engine with arena := arena }) :
    Firm base { engine with arena := arena } :=
  ⟨⟨firm.nonempty, firm.room, firm.atRoot⟩, firm.endures.trans endures, endures.ranged firm.ranged⟩

theorem Firm.with_index (firm : Firm base engine) {index : Occurrences}
    (size : index.entries.size = engine.index.entries.size) :
    Firm base { engine with index := index } :=
  ⟨⟨firm.nonempty, size.trans firm.room, firm.atRoot⟩, firm.endures.trans (.of_aside rfl rfl),
    firm.ranged⟩

/-- A trail that continues is as firm. -/
theorem Firm.with_trail (firm : Firm base engine) {trail : Trail}
    (continues : engine.trail.Continues trail) (levels : trail.levels = #[]) :
    Firm base { engine with trail := trail } := by
  have endures : engine.Endures { engine with trail := trail } := .of_trail continues
  refine ⟨⟨?_, ?_, levels⟩, firm.endures.trans endures, endures.ranged firm.ranged⟩
  · exact continues.vars ▸ firm.nonempty
  · change _ = 2 * trail.vars.size
    rw [continues.vars]
    exact firm.room

/-! ## Operations -/

/-- What a handle of the base names can be read. -/
theorem stays_clause (issued : base.Issued handle) :
    (Engine.clause handle).StaysIn (Firm base)
      fun clause => ∀ literal ∈ clause.literals, base.Owns literal :=
  .read fun _ firm => firm.exists_clause issued

/-- Counters, the proof, the records and the notices are no tables. -/
theorem stays_aside {change : Engine → Engine} (arena : ∀ engine, (change engine).arena = engine.arena)
    (index : ∀ engine, (change engine).index = engine.index)
    (trail : ∀ engine, (change engine).trail = engine.trail) :
    Run.StaysIn (Firm base) (modify change : Run Engine Unit) fun _ => True :=
  .modify fun engine firm => firm.of_same (arena engine) (index engine) (trail engine)

theorem stays_prove {step : ProofStep} : (prove step).StaysIn (Firm base) fun _ => True :=
  stays_aside (fun _ => rfl) (fun _ => rfl) fun _ => rfl

theorem stays_count {change : Tally → Tally} : (count change).StaysIn (Firm base) fun _ => True :=
  stays_aside (fun _ => rfl) (fun _ => rfl) fun _ => rfl

theorem stays_touch : touch.StaysIn (Firm base) fun _ => True :=
  stays_aside (fun _ => rfl) (fun _ => rfl) fun _ => rfl

theorem stays_pushRecord {chosen : Literal} :
    (pushRecord chosen literals).StaysIn (Firm base) fun _ => True :=
  stays_aside (fun _ => rfl) (fun _ => rfl) fun _ => rfl

/-- The index may change as long as it keeps its size. -/
theorem stays_updateIndex {change : Occurrences → Option Occurrences}
    (there : ∀ engine, Firm base engine → ∃ index, change engine.index = some index ∧
      index.entries.size = engine.index.entries.size) :
    (updateIndex change).StaysIn (Firm base) fun _ => True := by
  intro engine firm
  obtain ⟨index, changed, size⟩ := there engine firm
  exact .of_done (updateIndex_of_eq_some changed) ⟨firm.with_index size, trivial⟩

/-- The clauses may change as long as they endure. -/
theorem stays_updateArena {change : Arena → Option Arena}
    (there : ∀ engine, Firm base engine → ∃ arena, change engine.arena = some arena ∧
      engine.Endures { engine with arena := arena }) :
    (updateArena change).StaysIn (Firm base) fun _ => True := by
  intro engine firm
  obtain ⟨arena, changed, endures⟩ := there engine firm
  exact .of_done (updateArena_of_eq_some changed) ⟨firm.with_arena endures, trivial⟩

/-- A clause goes into its slot's grave. -/
theorem stays_bury (issued : base.Issued handle) :
    (updateArena fun arena => arena.remove handle).StaysIn (Firm base) fun _ => True := by
  refine stays_updateArena fun engine firm => ?_
  obtain ⟨clause, found, _⟩ := firm.exists_clause issued
  obtain ⟨arena, removed⟩ : ∃ arena, engine.arena.remove handle = some arena := by
    simp [Arena.remove, found]
  exact ⟨arena, removed, TolerantOfMarks.toTolerant.removes removed⟩

theorem stays_removeClause (issued : base.Issued handle) :
    (removeClause handle).StaysIn (Firm base) fun _ => True :=
  (stays_clause issued).bind fun _ owns => stays_prove.bind fun _ _ =>
    .bind (stays_updateIndex fun _ firm =>
      Occurrences.exists_remove fun literal inside => firm.index_lt (owns literal inside)) fun _ _ =>
    (stays_bury issued).bind fun _ _ => stays_touch

theorem stays_removeIfLive (issued : base.Issued handle) :
    (removeIfLive handle).StaysIn (Firm base) fun _ => True := by
  refine (stays_clause issued).bind fun clause _ => ?_
  split
  · exact .pure trivial
  · exact stays_removeClause issued

theorem stays_removeWithRecord (issued : base.Issued handle) :
    (removeWithRecord handle literal).StaysIn (Firm base) fun _ => True := by
  refine (stays_clause issued).bind fun clause _ => ?_
  dsimp only
  split
  · exact stays_removeClause issued
  · exact stays_pushRecord.bind fun _ _ => stays_removeClause issued

theorem stays_isRemovable {name : Nat} (inside : name < base.trail.vars.size) :
    (isRemovable name).StaysIn (Firm base) fun _ => True :=
  .read fun engine firm => by
    obtain ⟨removable, found⟩ := exists_isRemovable? (firm.endures.numVars ▸ inside)
    exact ⟨removable, found, trivial⟩

/-- At the root no level is opened by an assignment there. -/
theorem assignAtRoot_levels {trail : Trail} (atRoot : trail.levels = #[]) :
    (Trail.assignAtRoot literal).Ends trail (fun _ after => after.levels = #[])
      fun _ after => after.levels = #[] := by
  have closed : Run.update (fun trail : Trail => trail.cancelUntil 0) trail = .done () trail := by
    simp only [Run.update, Trail.cancelUntil_of_atRoot atRoot]
  refine .step closed (.step rfl ?_)
  split
  · exact .fail atRoot
  refine Run.Looks.access.bind fun value _ => ?_
  split
  · exact .update fun after pushed => (Trail.push_eq_some pushed).2.2.1.trans atRoot
  · split
    · exact .pure atRoot
    · exact .fail atRoot

/-- A literal is assigned, or it is refused. -/
theorem stays_assignUnit (owns : base.Owns literal) :
    (assignUnit literal).StaysIn (Firm base) fun _ => True := by
  intro engine firm
  refine ⟨?_, safe_assignUnit firm.atRoot (firm.var_lt owns)⟩
  unfold assignUnit
  refine Run.Looks.read.bind fun value _ => ?_
  split
  · exact .pure ⟨firm, trivial⟩
  · exact .fail firm
  refine Run.Looks.read.bind fun flags _ => ?_
  split
  · exact .fail firm
  have assigns : ∀ {engine : Engine}, Firm base engine →
      (onTrail fun _ _ => Trail.assignAtRoot literal).Ends engine (fun _ after => Firm base after)
        fun _ after => Firm base after := by
    intro engine firm
    have assigned : (Trail.assignAtRoot literal).Ends engine.trail _ _ :=
      Trail.assignAtRoot_continues.and (assignAtRoot_levels firm.atRoot)
    exact .within (onTrail_apply _ _) (assigned.imp
      (fun _ _ held => firm.with_trail held.1 held.2)
      fun _ _ held => firm.with_trail held.1 held.2)
  refine .step rfl (.bind (assigns (firm.of_same rfl rfl rfl)) fun _ middle firm => ?_)
  exact .step rfl (.of_done rfl ⟨firm.of_same rfl rfl rfl, trivial⟩)

/-- A clause is put behind the others, and it has a handle from then on, unless all of them
were given away. -/
theorem insertClause_lands {redundant : Bool} {failed : Error → Engine → Prop}
    (firm : Firm base engine) (owns : ∀ literal ∈ literals, base.Owns literal) :
    (insertClause literals redundant).Lands engine
      (fun handle after => Firm base after ∧ after.Issued handle) failed := by
  by_cases space : engine.arena.slots.size + 1 < UInt32.size
  · refine .of_done (if_pos space) ⟨?_, Clause.ofLiterals literals redundant, ?_⟩
    · exact firm.with_arena (.of_insert fun literal inside =>
        firm.endures.owns.2 (owns literal inside))
    · have place : (engine.arena.handleAt engine.arena.slots.size).index = engine.arena.slots.size :=
        Arena.index_handleAt (by omega)
      refine Arena.get?_eq_some.2 ⟨rfl, ?_⟩
      change (engine.arena.slots.push _)[(engine.arena.handleAt engine.arena.slots.size).index]? = _
      rw [place]
      exact Array.getElem?_push_size
  · have refused : insertClause literals redundant engine = .stuck .outOfSpace := if_neg space
    refine ⟨.of_stuck refused, fun why stuck => ?_⟩
    rw [refused] at stuck
    cases stuck
    nofun

/-- The clause of a handle is listed under its literals. -/
theorem stays_list (issued : base.Issued handle) :
    Run.StaysIn (Firm base) (do
      let stored ← Engine.clause handle
      updateIndex fun index => index.add handle stored.literals) fun _ => True :=
  (stays_clause issued).bind fun _ owns => stays_updateIndex fun _ firm =>
    Occurrences.exists_add fun literal inside => firm.index_lt (owns literal inside)

/-- Every clause is stored, or it is refused. -/
theorem stays_storeClause {redundant derived : Bool} :
    (storeClause literals redundant derived).StaysIn (Firm base) fun _ => True := by
  intro engine firm
  unfold storeClause
  refine .step rfl ?_
  split
  next => exact .fail firm
  next inRange =>
  have owns : ∀ literal ∈ sortedLiterals literals, engine.Owns literal :=
    owns_of_inRange (Bool.eq_false_iff.2 inRange)
  dsimp only
  split
  · exact .pure ⟨firm, trivial⟩
  obtain ⟨satisfied, asked⟩ := exists_satisfies? fun literal member => (owns literal member).2
  refine .step (Run.access_of_eq_some asked) ?_
  split
  · exact .pure ⟨firm, trivial⟩
  obtain ⟨remaining, opened⟩ := exists_openLiterals? fun literal member => (owns literal member).2
  refine .step (Run.access_of_eq_some opened) ?_
  have ownsRest : ∀ literal ∈ remaining, base.Owns literal := fun literal member =>
    firm.endures.owns.1 (owns literal ((openLiterals?_spec opened).1.subset member))
  have inserts : ∀ before : Engine, Firm base before → (do
      let handle ← insertClause remaining redundant
      let stored ← Engine.clause handle
      updateIndex fun index => index.add handle stored.literals
      touch
      return some handle).Lands before (fun _ after => Firm base after ∧ True)
        fun _ after => Firm base after := by
    intro before firm
    refine (insertClause_lands firm ownsRest).bind fun handle middle ⟨firm, issued⟩ => ?_
    have lists := (stays_list issued).bind fun _ _ => stays_touch.bind fun _ _ =>
      (.pure trivial : Run.StaysIn _ (pure (some handle)) fun _ => True)
    simp only [bind_assoc] at lists
    exact (lists middle firm.self).imp (fun _ _ held => ⟨firm.trans held.1, trivial⟩)
      fun _ _ held => firm.trans held
  split
  · exact .fail firm
  next literal =>
    exact (stays_assignUnit (ownsRest literal List.mem_cons_self)).bind (fun _ _ => .pure trivial)
      engine firm
  · split
    · exact .step rfl (inserts _ (firm.of_same rfl rfl rfl))
    · exact inserts engine firm

/-- A variable of the base is taken from the formula. -/
theorem stays_handle_eliminated {name : Nat} (inside : name < base.trail.vars.size) :
    (Engine.handle (.eliminated name)).StaysIn (Firm base) fun _ => True := by
  intro engine firm
  have here : name < engine.trail.vars.size := firm.endures.numVars ▸ inside
  let retired : Trail := { engine.trail with
    vars := engine.trail.vars.modify name fun state =>
      { state with flags := state.flags.set .eliminated true }
    eliminated := engine.trail.eliminated + 1 }
  have retires : engine.trail.handle (.eliminated name) = some retired := by
    simp [Trail.handle, Trail.setFlag, Trail.modify?, here, retired]
  have kept : Firm base { engine with trail := retired } :=
    firm.with_trail ⟨Array.size_modify, id⟩ firm.atRoot
  exact .step (updateTrail_of_eq_some retires) (.of_done rfl ⟨kept.of_same rfl rfl rfl, trivial⟩)

end Engine

/-! ## Techniques -/

/-- Root literals are applied to a sound engine. -/
theorem Engine.propagateUnits_meets [Realm] {admitted : Breakdown → Prop} {engine : Engine}
    (sound : engine.Sound) (orderly : engine.trail.Orderly) :
    Engine.propagateUnits.Meets admitted engine
      (fun _ after => engine.Leads .removal after ∧ engine.Endures after)
      fun _ after => engine.Endures after := by
  have works : Works .removal Engine.propagateUnits engine _ := Engine.works_propagateUnits
  refine ⟨((works sound).and ((Engine.tracks_propagateUnits : Tracks Engine.Endures _) engine)).imp ?_ ?_,
    Engine.safe_propagateUnits sound (.inr orderly)⟩
  · exact fun _ _ held => ⟨held.1.1, held.2⟩
  · exact fun _ _ held => held.2

/-- A technique gets stuck for no other reasons than its body, and it keeps what the body left. -/
theorem Work.process_meets {τ : Type} {admitted : Breakdown → Prop} {base : Settings → UInt64} {body : Work τ Unit}
    {notice : Nat → Engine → Budget → Engine → Notice} {state : Tool τ × Engine}
    (done failed : τ → Prop) (meets : ∀ tool : Tool τ, tool.own = state.1.own →
      body.Meets admitted (tool, state.2) (fun _ after => state.2.Endures after.2 ∧ done after.1.own)
        fun cause after => cause.isUnsat = true ∧ state.2.Endures after.2 ∧ failed after.1.own) :
    (Work.process base body notice).Meets admitted state (fun status after => state.2.Endures after.2 ∧
      (done after.1.own ∨ status = .unsat ∧ failed after.1.own)) fun _ _ => False := by
  refine ⟨?_, Work.safe_process fun tool own _ => (meets tool own).safe⟩
  refine .step rfl (.step rfl (.step rfl ?_))
  have attempted : ∀ tool : Tool τ, tool.own = state.1.own → body.attempt.Ends (tool, state.2)
      (fun result after => state.2.Endures after.2 ∧
        match result with
        | .ok _ => done after.1.own
        | .error cause => cause.isUnsat = true ∧ failed after.1.own) fun _ _ => False :=
    fun tool own => .attempt ((meets tool own).ends.imp (fun _ _ => id)
      fun _ _ held => ⟨held.2.1, held.1, held.2.2⟩)
  refine (attempted _ (by rfl)).bind fun result after ⟨endures, held⟩ => ?_
  refine .step rfl (.step rfl (.step rfl ?_))
  have told : state.2.Endures { after.2 with
      notices := after.2.notices.push (notice (state.1.runs + 1) state.2 after.1.budget after.2) } :=
    endures.trans (.of_aside rfl rfl)
  match result, held with
  | .ok (), held => exact .of_done rfl ⟨told, .inl held⟩
  | .error cause, ⟨isUnsat, held⟩ =>
    have concludes (engine : Engine) : (Engine.conclude (.error cause)).Ends engine _ _ :=
      ((Engine.tracks_conclude : Tracks Engine.Endures _) engine).and (Engine.conclude_of_isUnsat isUnsat)
    exact .within rfl ((concludes _).imp
      (fun status last verdict => ⟨told.trans verdict.1, .inr ⟨verdict.2, held⟩⟩)
      fun _ _ => And.right)

end CnfSimplifier
