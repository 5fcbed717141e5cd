import CnfSimplifier.Proofs.Consistency

/-!
# What every operation keeps

An engine is *upright* if its parts are in step, its clauses have the form of clauses
and no list is dirty. Every operation keeps an engine upright, whether it is done or
fails. Nothing is asked about what a clause means: a clause may be removed although
the formula does not imply it, or lose a literal without which it does not follow, and
clauses may mention removed variables.
-/
namespace CnfSimplifier

variable {σ α β : Type} [HasEngine σ]

namespace Engine

variable {engine after : Engine} {handle : Handle} {clause : Clause} {literal : Literal}
  {literals : List Literal} {redundant derived : Bool}

/-- Parts in step, clauses in form, and clean lists. -/
structure Upright (engine : Engine) : Prop extends InStep engine where
  formed : ∀ literals ∈ engine.arena.contents, FormedOver engine.numVars literals
  named : ∀ literal ∈ engine.trail.facts, 0 < literal.var
  clean : engine.index.dirty = #[]

/-- Upright engines are sound in the lenient sense. -/
theorem Upright.sound (upright : engine.Upright) : @Sound .lenient engine :=
  let _ : Realm := .lenient
  { toInStep := upright.toInStep
    wellFormed := by
      refine ⟨fun literals stored => ?_, fun literal atRoot => ?_, engine.trail.nodup_facts⟩
      · obtain ⟨two, ascending, proper, inRange⟩ := upright.formed literals stored
        refine ⟨ascending, two, fun literal inside => ?_, proper⟩
        exact ⟨(inRange literal inside).1, (inRange literal inside).2, .inr trivial, trivial⟩
      · exact ⟨upright.named literal atRoot, Trail.var_le_of_mem_facts atRoot, .inr trivial,
          trivial⟩ }

/-- Sound engines with clean lists are upright. -/
theorem Sound.upright [Realm] (sound : engine.Sound) (clean : engine.index.dirty = #[]) :
    engine.Upright where
  toInStep := sound.toInStep
  formed literals stored := by
    obtain ⟨ascending, two, present, proper⟩ := sound.wellFormed.admits literals stored
    exact ⟨two, ascending, proper, fun literal inside =>
      ⟨(present literal inside).1, (present literal inside).2.1⟩⟩
  named literal atRoot := (sound.wellFormed.known literal atRoot).1
  clean := clean

theorem Upright.consistent (upright : engine.Upright) : engine.Consistent :=
  @Sound.consistent _ .lenient upright.sound upright.clean

theorem Upright.of_same (upright : engine.Upright) (arena : after.arena = engine.arena)
    (index : after.index = engine.index) (trail : after.trail = engine.trail)
    (applied : after.applied = engine.applied) : after.Upright where
  toInStep := upright.toInStep.of_same arena index trail applied
  formed := by
    unfold numVars
    rw [arena, trail]
    exact upright.formed
  named := trail ▸ upright.named
  clean := index ▸ upright.clean

end Engine

/-- Work keeps an engine upright and leaves the number of variables. -/
def Keeps (body : Run σ α) (state : σ) (post : α → σ → Prop) : Prop :=
  (engineOf state).Upright → body.Ends state
    (fun value after => (engineOf after).Upright ∧
      (engineOf after).numVars = (engineOf state).numVars ∧ post value after)
    fun _ after => (engineOf after).Upright ∧ (engineOf after).numVars = (engineOf state).numVars

namespace Keeps

variable {body : Run σ α} {state : σ} {post : α → σ → Prop} {next : α → Run σ β}
  {last : β → σ → Prop}

/-- What works keeps an engine upright. -/
theorem of_works {scope : Scope} (works : @Works .lenient σ α _ scope body state post) :
    Keeps body state post := by
  let _ : Realm := .lenient
  intro upright
  refine (works upright.sound).imp (fun value after ⟨leads, holds⟩ => ⟨?_, ?_, holds⟩)
    fun cause after fails => ⟨?_, ?_⟩
  · exact (leads.sound upright.sound).upright (leads.clean upright.clean)
  · exact Steps.numVars_eq leads.steps
  · exact (fails.sound upright.sound).upright (fails.clean upright.clean)
  · obtain ⟨log, steps⟩ := fails.reached
    exact Steps.numVars_eq steps

theorem imp {less : α → σ → Prop} (keeps : Keeps body state post)
    (holds : ∀ value after, post value after → less value after) : Keeps body state less :=
  fun upright => (keeps upright).imp (fun value after ⟨upright, numVars, reached⟩ =>
    ⟨upright, numVars, holds value after reached⟩) fun _ _ kept => kept

theorem of_upright (keeps : (engineOf state).Upright → Keeps body state post) :
    Keeps body state post := fun upright => keeps upright upright

theorem pure {value : α} (holds : post value state) : Keeps (pure value : Run σ α) state post :=
  fun upright => .pure ⟨upright, rfl, holds⟩

theorem fail {cause : Error} : Keeps (Run.fail cause : Run σ α) state post :=
  fun upright => .fail ⟨upright, rfl⟩

theorem bind (first : Keeps body state post)
    (rest : ∀ value after, (engineOf after).numVars = (engineOf state).numVars →
      post value after → Keeps (next value) after last) : Keeps (body >>= next) state last := by
  intro upright
  refine (first upright).bind fun value after ⟨uprightAfter, numVars, holds⟩ => ?_
  exact (rest value after numVars holds uprightAfter).imp
    (fun value last ⟨uprightLast, numVarsLast, reached⟩ =>
      ⟨uprightLast, numVarsLast.trans numVars, reached⟩)
    fun cause last ⟨uprightLast, numVarsLast⟩ => ⟨uprightLast, numVarsLast.trans numVars⟩

/-- A part that only looks. -/
theorem look {found : α → Prop} (looks : body.Looks state found)
    (rest : ∀ value, found value → Keeps (next value) state last) :
    Keeps (body >>= next) state last :=
  fun upright => looks.bind fun value holds => rest value holds upright

/-- A change that does not touch the formula. -/
theorem of_done {value : α} {after : σ} (ended : body state = .done value after)
    (arena : (engineOf after).arena = (engineOf state).arena)
    (index : (engineOf after).index = (engineOf state).index)
    (trail : (engineOf after).trail = (engineOf state).trail)
    (applied : (engineOf after).applied = (engineOf state).applied)
    (holds : post value after) : Keeps body state post := by
  intro upright
  refine .of_done ended ⟨upright.of_same arena index trail applied, ?_, holds⟩
  unfold Engine.numVars
  rw [trail]

/-- A part that does not touch the formula. -/
theorem step {value : α} {after : σ} (ended : body state = .done value after)
    (arena : (engineOf after).arena = (engineOf state).arena)
    (index : (engineOf after).index = (engineOf state).index)
    (trail : (engineOf after).trail = (engineOf state).trail)
    (applied : (engineOf after).applied = (engineOf state).applied)
    (rest : Keeps (next value) after last) : Keeps (body >>= next) state last := by
  have first : Keeps body state fun reached final => reached = value ∧ final = after :=
    .of_done ended arena index trail applied ⟨rfl, rfl⟩
  refine first.bind ?_
  rintro _ _ _ ⟨rfl, rfl⟩
  exact rest

/-- An attempt is done in any case. -/
theorem attempt (keeps : Keeps body state post) : Keeps body.attempt state fun _ _ => True :=
  fun upright => .attempt ((keeps upright).imp
    (fun _ _ ⟨uprightAfter, numVars, _⟩ => ⟨uprightAfter, numVars, trivial⟩)
    fun _ _ ⟨uprightAfter, numVars⟩ => ⟨uprightAfter, numVars, trivial⟩)

/-- Work on the engine alone. -/
theorem lift {τ : Type} {body : Run Engine α} {state : τ × Engine} {post : α → Engine → Prop}
    (keeps : Keeps body state.2 post) : Keeps (liftM body : Run (τ × Engine) α) state
      fun value after => after.1 = state.1 ∧ post value after.2 := by
  intro upright
  refine (Run.Ends.lift (keeps upright)).imp ?_ fun _ _ kept => kept
  exact fun value after ⟨same, upright, numVars, holds⟩ => ⟨upright, numVars, same, holds⟩

end Keeps

namespace Engine

variable {engine after : Engine} {handle : Handle} {clause : Clause} {literal : Literal}
  {literals : List Literal} {redundant derived : Bool}

/-- Live clauses stay live. -/
def KeepsLive (engine after : Engine) : Prop :=
  ∀ handle clause, engine.arena.live? handle = some clause →
    after.arena.live? handle = some clause

theorem KeepsLive.refl : KeepsLive engine engine := fun _ _ => id

theorem Grows.keepsLive {allowed : Literal → Prop} (grows : Grows engine allowed after) :
    KeepsLive engine after := by
  intro handle clause live
  rw [Arena.live?_eq_some] at live ⊢
  exact ⟨grows.older handle clause live.1, live.2⟩

/-! ## Assigning and storing -/

/-- An open literal of a variable is pushed. -/
theorem Upright.push (upright : engine.Upright) (positive : 0 < literal.var)
    (value : engine.trail.literalValue? literal = some none)
    (pushed : engine.trail.push literal 0 = some after.trail)
    (arena : after.arena = engine.arena) (index : after.index = engine.index)
    (applied : after.applied = engine.applied) : after.Upright where
  toInStep := upright.toInStep.push value pushed arena index applied
  formed := by
    unfold numVars
    rw [arena, (Trail.sameFlags_push pushed).numVars]
    exact upright.formed
  named other atRoot := by
    rw [Trail.facts_push value pushed] at atRoot
    rcases List.mem_append.1 atRoot with earlier | new
    · exact upright.named other earlier
    · rw [List.mem_singleton.1 new]
      exact positive
  clean := index ▸ upright.clean

/-- A literal of a variable is assigned, or it has a value, or its variable is gone. -/
theorem keeps_assignUnit (positive : 0 < literal.var) :
    Keeps (assignUnit literal) engine fun _ after => KeepsLive engine after := by
  intro upright
  cases found : engine.trail.literalValue? literal with
  | none =>
    have ended : literalValue literal engine = .stuck .badAccess := by
      simp only [literalValue, Run.read, found]
    exact .of_stuck (Run.bind_of_stuck ended)
  | some value =>
    have looked : literalValue literal engine = .done value engine := by
      simp only [literalValue, Run.read, found]
    rcases value with _ | _ | _
    · by_cases removed : engine.trail.Removed literal.var
      · exact .of_failed (assignUnit_of_removed found removed) ⟨upright, rfl⟩
      refine (assignUnit_of_open upright.trail found removed).imp (fun _ after => ?_)
        fun _ _ impossible => impossible.elim
      rintro ⟨trail, tally, changes, pushed, rfl⟩
      exact ⟨upright.push positive found pushed rfl rfl rfl, (Trail.sameFlags_push pushed).numVars,
        .refl⟩
    · unfold assignUnit
      exact .step looked (.fail ⟨upright, rfl⟩)
    · unfold assignUnit
      exact .step looked (.pure ⟨upright, rfl, .refl⟩)

/-- What is left of a clause has the form of a clause. -/
theorem Reduced.formed {remaining : List Literal} (reduced : Reduced engine literals remaining)
    (inRange : ∀ literal ∈ literals, 0 < literal.var ∧ literal.var ≤ engine.numVars)
    (plain : hasComplements (sortedLiterals literals) = false) (two : 2 ≤ remaining.length) :
    FormedOver engine.numVars remaining := by
  refine ⟨two, reduced.sorted, fun literal inside opposite => ?_,
    fun literal inside => inRange literal (reduced.subset inside)⟩
  exact complement_not_mem (pairwise_sortedLiterals literals)
    (fun other member => (inRange other (mem_sortedLiterals.1 member)).1) plain literal
    (mem_sortedLiterals.2 (reduced.subset inside))
    (mem_sortedLiterals.2 (reduced.subset opposite))

/-- A stored clause keeps an engine upright. -/
theorem Inserts.upright (inserts : Inserts engine literals redundant after)
    (upright : engine.Upright) (formed : FormedOver engine.numVars literals) : after.Upright where
  toInStep := inserts.inStep
  formed other stored := by
    unfold numVars
    rw [inserts.trail]
    rcases Multiset.mem_cons.1 (inserts.contents ▸ stored) with rfl | earlier
    · exact formed
    · exact upright.formed other earlier
  named := inserts.trail ▸ upright.named
  clean := inserts.dirty.trans upright.clean

/-- Clauses of any literals are stored, assigned, or refused. -/
theorem keeps_storeClause : Keeps (storeClause literals redundant derived) engine
    fun _ after => KeepsLive engine after := by
  intro upright
  refine storeClause_ends upright.trail (fun _ => ⟨upright, rfl⟩) (fun _ _ => ⟨upright, rfl, .refl⟩)
    (fun _ => ⟨upright, rfl, .refl⟩) fun inRange plain remaining reduced => ?_
  have insert : 2 ≤ remaining.length → ∀ proof, (do
      let handle ← insertClause remaining redundant
      let stored ← Engine.clause handle
      updateIndex fun index => index.add handle stored.literals
      touch
      return some handle).Ends { engine with proof := proof }
      (fun _ after => after.Upright ∧ after.numVars = engine.numVars ∧ KeepsLive engine after)
      fun _ after => after.Upright ∧ after.numVars = engine.numVars := by
    intro two proof
    have uprightNow : Upright { engine with proof := proof } := upright.of_same rfl rfl rfl rfl
    refine insertClause_seq uprightNow.toInStep reduced.sorted fun after inserts => ?_
    have uprightAfter := inserts.upright uprightNow (reduced.formed inRange plain two)
    refine .step rfl (.pure ⟨uprightAfter.of_same rfl rfl rfl rfl, ?_, ?_⟩)
    · change after.trail.numVars = _
      rw [inserts.trail]
      rfl
    · exact (inserts.grows reduced.sorted).keepsLive
  rcases remaining with _ | ⟨first, _ | ⟨second, others⟩⟩
  · exact .fail ⟨upright, rfl⟩
  · have positive := (inRange first (reduced.subset List.mem_cons_self)).1
    exact .seq ((keeps_assignUnit positive upright).imp (fun _ _ held => .pure held)
      fun _ _ kept => kept)
  · unfold storeRemaining
    dsimp only
    split
    · exact .step rfl (insert (by simp) _)
    · exact insert (by simp) engine.proof

/-! ## Removing and shortening -/

/-- So does a removed one. -/
theorem Removes.upright (removes : Removes engine handle clause after) (upright : engine.Upright)
    (dirty : after.index.dirty = engine.index.dirty) : after.Upright where
  toInStep := removes.inStep
  formed other stored := by
    unfold numVars
    rw [removes.trail]
    exact upright.formed other (removes.contents ▸ Multiset.mem_cons_of_mem stored)
  named := removes.trail ▸ upright.named
  clean := dirty.trans upright.clean

/-- Removing a live clause is kept to. -/
theorem keeps_removeClause (live : engine.arena.live? handle = some clause) :
    Keeps (removeClause handle) engine fun _ _ => True := by
  intro upright
  refine (removeClause_ends upright.toInStep live).imp (fun _ after ⟨removes, dirty, _⟩ => ?_)
    fun _ _ impossible => impossible.elim
  refine ⟨removes.upright upright dirty, ?_, trivial⟩
  unfold numVars
  rw [engineOf_engine, removes.trail, engineOf_engine]

theorem keeps_removeWithRecord (live : engine.arena.live? handle = some clause) :
    Keeps (removeWithRecord handle literal) engine fun _ _ => True := by
  unfold removeWithRecord
  refine .look looks_clause fun removed _ => ?_
  split
  · exact keeps_removeClause live
  · exact .step rfl rfl rfl rfl rfl (keeps_removeClause live)

/-- A live clause is replaced by any other. -/
theorem keeps_replaceClause (live : engine.arena.live? handle = some clause) :
    Keeps (replaceClause handle literals) engine fun _ _ => True := by
  unfold replaceClause
  refine .look looks_clause fun old _ => ?_
  refine keeps_storeClause.bind fun new after _ kept => ?_
  exact (keeps_removeClause (kept handle clause live)).bind fun _ _ _ _ => .pure trivial

/-- A shortened clause of two literals or more is a clause. -/
theorem Shortens.upright (shortens : Shortens engine handle clause literal after)
    (upright : engine.Upright) (inside : literal ∈ clause.literals)
    (long : 3 ≤ clause.literals.length) : after.Upright where
  toInStep := shortens.inStep
  formed other stored := by
    obtain ⟨rest, split, contents⟩ := shortens.contents
    unfold numVars
    rw [shortens.trail]
    rcases Multiset.mem_cons.1 (contents ▸ stored) with rfl | kept
    · obtain ⟨two, ascending, proper, inRange⟩ :=
        upright.formed clause.literals (split ▸ Multiset.mem_cons_self _ _)
      refine ⟨?_, ascending.sublist List.erase_sublist, fun other member opposite =>
        proper other (List.mem_of_mem_erase member) (List.mem_of_mem_erase opposite),
        fun other member => inRange other (List.mem_of_mem_erase member)⟩
      rw [List.length_erase_of_mem inside]
      omega
    · exact upright.formed other (split ▸ Multiset.mem_cons_of_mem kept)
  named := shortens.trail ▸ upright.named
  clean := shortens.dirty.trans upright.clean

/-- A live clause loses any of its literals. -/
theorem keeps_strengthen (live : engine.arena.live? handle = some clause)
    (inside : literal ∈ clause.literals) :
    Keeps (strengthen handle literal) engine fun _ _ => True := by
  refine .of_upright fun (upright : engine.Upright) => ?_
  obtain ⟨found, _⟩ := Arena.live?_eq_some.1 live
  obtain ⟨two, _, _, inRange⟩ := upright.formed _ (Arena.contents_of_live live)
  unfold strengthen
  refine .look looks_clause fun old lookedUp => ?_
  rw [found, Option.some.injEq] at lookedUp
  subst lookedUp
  split
  next first second pair =>
    have member : (if first = literal then second else first) ∈ clause.literals := by
      rw [pair]
      split <;> simp
    refine (keeps_assignUnit (inRange _ member).1).bind fun _ after _ kept => ?_
    exact keeps_removeClause (kept handle clause live)
  next noPair =>
    have long : 3 ≤ clause.literals.length := by
      by_contra short
      obtain ⟨first, second, pair⟩ :=
        List.length_eq_two.1 (by omega : clause.literals.length = 2)
      exact noPair first second pair
    intro _
    refine (shorten_ends upright.toInStep live inside long).imp (fun _ after shortens => ?_)
      fun _ _ impossible => impossible.elim
    refine ⟨shortens.upright upright inside long, ?_, trivial⟩
    unfold numVars
    rw [engineOf_engine, shortens.trail, engineOf_engine]

theorem keeps_makeIrredundant (live : engine.arena.live? handle = some clause) :
    Keeps (makeIrredundant handle) engine fun _ _ => True := by
  let _ : Realm := .lenient
  have works : Works .propagation (makeIrredundant handle) engine fun _ _ => True :=
    (works_makeIrredundant live).imp fun _ _ _ => trivial
  exact .of_works works

/-! ## The arena as a whole -/

/-- All clauses may be released. -/
theorem keeps_releaseClauses : Keeps releaseClauses engine fun _ _ => True := by
  intro upright
  refine (releaseClauses_ends upright.toInStep).imp (fun _ after ⟨releases, empty⟩ => ?_)
    fun _ _ impossible => impossible.elim
  refine ⟨⟨releases.inStep, ?_, releases.trail ▸ upright.named,
    releases.dirty.trans upright.clean⟩, ?_, trivial⟩
  · rw [engineOf_engine, empty]
    exact fun _ impossible => absurd impossible (Multiset.notMem_zero _)
  · unfold numVars
    rw [engineOf_engine, releases.trail, engineOf_engine]

/-- A compaction keeps an engine upright. -/
theorem keeps_compact : Keeps compact engine fun _ _ => True := by
  intro upright
  unfold compact
  refine .step rfl (.seq (updateIndex_ends fun index relocated => ?_))
  refine .step rfl (.step rfl (.pure ⟨?_, rfl, trivial⟩))
  have goes : engine.Goes .removal { engine with
      arena := engine.arena.compact.2, index := index, notices := engine.notices } :=
    .of_compact upright.toInStep relocated
  exact ⟨⟨goes.inStep.toFiled, goes.inStep.trail, goes.inStep.due⟩, fun literals stored =>
    upright.formed literals (Arena.contents_compact engine.arena ▸ stored), upright.named,
    goes.clean upright.clean⟩

end Engine

end CnfSimplifier
