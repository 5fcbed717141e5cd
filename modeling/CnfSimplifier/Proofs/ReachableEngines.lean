import CnfSimplifier.Proofs.Upright

/-!
# Engines that operations lead to

Whatever operations are used on an engine, in any order, with or without success, and
with tools in any state: clauses, lists and counters are right afterwards.

Techniques keep an engine upright because they work on any sound one. Only probing
rests on applied root literals for that, and after a failure there may be others. Then
root propagation may find literals and even falsify a clause, and a probe may take back
a value that was given at the root; the engine is upright all the same.
-/
namespace CnfSimplifier

namespace Engine

variable {engine : Engine} {literal : Literal}

/-- Drawing a conclusion keeps an engine upright. -/
theorem keeps_conclude {result : Except Error Unit} :
    Keeps (conclude result) engine fun _ _ => True := by
  intro upright
  have same : ∀ after : Engine, after.arena = engine.arena → after.index = engine.index →
      after.trail = engine.trail → after.applied = engine.applied →
      after.Upright ∧ after.numVars = engine.numVars ∧ True := by
    intro after arena index trail applied
    refine ⟨upright.of_same arena index trail applied, ?_, trivial⟩
    unfold numVars
    rw [trail]
  match result with
  | .ok () => exact .of_done rfl (same _ rfl rfl rfl rfl)
  | .error cause =>
    unfold conclude
    dsimp only
    split
    · refine .step rfl ?_
      split
      · exact .step rfl (.pure (same _ rfl rfl rfl rfl))
      · exact .step rfl (.step rfl (.pure (same _ rfl rfl rfl rfl)))
    · split
      · exact .pure (same _ rfl rfl rfl rfl)
      · exact .step rfl (.step rfl (.pure (same _ rfl rfl rfl rfl)))
      · exact .step rfl (.pure (same _ rfl rfl rfl rfl))

/-- A technique that comes to a conclusion leaves an upright engine. -/
theorem Concludes.upright {scope : Scope} {status : Status} {after : Engine}
    (concludes : @Concludes .lenient scope engine status after) (upright : engine.Upright) :
    after.Upright := by
  let _ : Realm := .lenient
  have reached : ∀ log, Steps scope engine.picture { after.picture with log := log } →
      after.InStep → (engine.index.dirty = #[] → after.index.dirty = #[]) → after.Upright := by
    intro log steps inStep clean
    have wellFormed := Steps.wellFormed steps upright.sound.wellFormed
    have sound : after.Sound := ⟨inStep, fun literals stored =>
      (wellFormed.admits literals stored).of_same_vars rfl rfl, wellFormed.known,
      wellFormed.distinct⟩
    exact sound.upright (clean upright.clean)
  rcases concludes with (⟨_, leads, _⟩ | ⟨_, refutes⟩) | ⟨_, breaks⟩
  · exact (leads.sound upright.sound).upright (leads.clean upright.clean)
  · obtain ⟨log, steps⟩ := refutes.reached
    exact reached log steps (refutes.goes.inStep.of_same rfl rfl rfl rfl) refutes.goes.clean
  · obtain ⟨log, steps⟩ := breaks.reached
    exact reached log steps (breaks.goes.inStep.of_same rfl rfl rfl rfl) breaks.goes.clean

/-- So does a new variable. -/
theorem upright_widened (upright : engine.Upright) (room : engine.trail.vars.size < 0x80000000) :
    engine.widened.Upright where
  toInStep := inStep_widened room upright.toInStep
  formed literals stored := by
    have numVars : engine.widened.numVars = engine.numVars + 1 :=
      congrArg Picture.numVars (picture_widened upright.trail.nonempty)
    obtain ⟨two, ascending, proper, inRange⟩ := upright.formed literals stored
    refine ⟨two, ascending, proper, fun literal inside => ⟨(inRange literal inside).1, ?_⟩⟩
    rw [numVars]
    exact Nat.le_succ_of_le (inRange literal inside).2
  named literal atRoot := by
    change literal ∈ engine.widened.trail.facts at atRoot
    rw [show engine.widened.trail.facts = engine.trail.facts from
      engine.trail.facts_push_var] at atRoot
    exact upright.named literal atRoot
  clean := upright.clean

/-- An empty engine is upright. -/
theorem upright_ofVars (settings : Settings) {numVars : Nat} (small : numVars < 2 ^ 31) :
    (ofVars settings numVars).Upright where
  toInStep := (Simplifier.standing_ofVars settings small).sane.toInStep
  formed _ stored := absurd stored (Multiset.notMem_zero _)
  named _ atRoot := nomatch atRoot
  clean := rfl

end Engine

/-- A technique keeps an engine upright if its body does. -/
theorem Work.keeps_process {τ : Type} {base : Settings → UInt64} {body : Work τ Unit}
    {notice : Nat → Engine → Budget → Engine → Notice} {state : Tool τ × Engine}
    (keeps : ∀ tool, Keeps body (tool, state.2) fun _ _ => True) :
    Keeps (Work.process base body notice) state fun _ _ => True := by
  obtain ⟨tool, engine⟩ := state
  unfold Work.process
  refine .step rfl rfl rfl rfl rfl (.step rfl rfl rfl rfl rfl (.step rfl rfl rfl rfl rfl ?_))
  refine (keeps _).attempt.bind fun result after _ _ => ?_
  refine .step rfl rfl rfl rfl rfl (.step rfl rfl rfl rfl rfl (.step rfl rfl rfl rfl rfl ?_))
  exact (Keeps.lift Engine.keeps_conclude).imp fun _ _ _ => trivial

/-! ## Probing without applied root literals -/

namespace Probing

variable {engine : Engine} {literal : Literal} {state : Tool Unit × Engine}

/-- What propagation leaves of a trail: literals of the engine's variables were added,
and only their variables have other values. -/
structure Extends (engine : Engine) (root : List Literal) (trail : Trail) (new : List Literal) :
    Prop where
  agrees : trail.Agrees
  flags : engine.trail.SameFlags trail
  appended : trail.literals.toList = root ++ new
  inRange : ∀ literal ∈ new, 0 < literal.var ∧ literal.var ≤ engine.numVars
  values : ∀ name, name ∉ new.map Literal.var → trail.value? name = engine.trail.value? name

theorem Extends.of_head {root new : List Literal} {trail : Trail}
    (extends_ : Extends engine root trail new) (head : Nat) :
    Extends engine root { trail with head := head } new :=
  ⟨extends_.agrees, ⟨extends_.flags.size, extends_.flags.flags, extends_.flags.eliminated,
    extends_.flags.substituted⟩, extends_.appended, extends_.inRange, extends_.values⟩

/-- A literal in range is pushed during a probe. -/
theorem Extends.push {root new : List Literal} {trail after : Trail} {level : Nat}
    (extends_ : Extends engine root trail new)
    (inRange : 0 < literal.var ∧ literal.var ≤ engine.numVars)
    (pushed : trail.push literal level = some after) :
    Extends engine root after (new ++ [literal]) where
  agrees := extends_.agrees.push pushed
  flags := extends_.flags.trans (Trail.sameFlags_push pushed)
  appended := by
    rw [(Trail.push_eq_some pushed).2.1, Array.toList_push, extends_.appended, List.append_assoc]
  inRange := List.forall_mem_append.2 ⟨extends_.inRange, by simpa using inRange⟩
  values name absent := by
    rw [List.map_append, List.mem_append, not_or] at absent
    rw [Trail.value?_push pushed, if_neg (by simpa using absent.2)]
    exact extends_.values name absent.1

/-- Propagation after a literal was assumed. -/
theorem propagate_extends (upright : engine.Upright) {root : List Literal} {start : Trail}
    {first : List Literal} (extends_ : Extends engine root start first) {failed : Error → Engine → Prop} :
    (Engine.onTrail Trail.propagate).Ends { engine with trail := start } (fun _ after =>
      ∃ trail new, after = { engine with trail := trail } ∧
        Extends engine root trail (first ++ new) ∧ trail.levels = start.levels) failed := by
  have kept : Trail.KeptByUnits engine.arena fun trail => ∃ new,
      Extends engine root trail (first ++ new) ∧ trail.levels = start.levels := by
    rintro trail after handle clause literal ⟨new, sofar, levels⟩ live member _ _ pushed
    have formed := upright.formed _ (Arena.contents_of_live live)
    refine ⟨new ++ [literal], ?_, (Trail.push_eq_some pushed).2.2.1.trans levels⟩
    rw [← List.append_assoc]
    exact sofar.push (formed.inRange literal member) pushed
  have moved : ∀ (trail : Trail) head, (∃ new, Extends engine root trail (first ++ new) ∧
      trail.levels = start.levels) → ∃ new, Extends engine root { trail with head := head }
        (first ++ new) ∧ trail.levels = start.levels :=
    fun trail head ⟨new, sofar, levels⟩ => ⟨new, sofar.of_head head, levels⟩
  refine .within (Engine.onTrail_apply _ _) ((Trail.propagate_keeps (fun _ _ _ => moved _ _) kept
    ⟨[], by simpa using extends_, rfl⟩).imp ?_ fun _ _ impossible => impossible.elim)
  rintro _ trail ⟨⟨new, sofar, levels⟩, _⟩
  exact ⟨trail, new, rfl, sofar, levels⟩

/-- Propagation at the root assigns literals of clauses, whether or not it falsifies
one. -/
theorem keeps_propagateAtRoot : Keeps (Engine.onTrail Trail.propagateAtRoot) engine
    fun _ after => after.applied = engine.applied := by
  intro upright
  have moved : ∀ (trail : Trail) head, Engine.Upright { engine with trail := trail } ∧
      engine.trail.SameFlags trail → Engine.Upright { engine with
        trail := { trail with head := head } } ∧
        engine.trail.SameFlags { trail with head := head } := by
    rintro trail head ⟨uprightNow, flags⟩
    refine ⟨⟨⟨uprightNow.toFiled, ⟨uprightNow.trail.atRoot, uprightNow.trail.small,
      uprightNow.trail.nonempty, uprightNow.trail.agrees⟩, uprightNow.due⟩, uprightNow.formed,
      uprightNow.named, uprightNow.clean⟩, ⟨flags.size, flags.flags, flags.eliminated,
      flags.substituted⟩⟩
  have kept : Trail.KeptByUnits engine.arena fun trail =>
      Engine.Upright { engine with trail := trail } ∧ engine.trail.SameFlags trail := by
    rintro trail after handle clause literal ⟨uprightNow, flags⟩ live member unassigned _ pushed
    have formed := upright.formed _ (Arena.contents_of_live live)
    have atRoot : trail.level = 0 := congrArg Array.size uprightNow.trail.atRoot
    have pushed : trail.push literal 0 = some after := by
      rw [← atRoot]
      exact pushed
    exact ⟨uprightNow.push (formed.inRange literal member).1 unassigned pushed rfl rfl rfl,
      flags.trans (Trail.sameFlags_push pushed)⟩
  have numVars : ∀ trail : Trail, engine.trail.SameFlags trail →
      Engine.numVars { engine with trail := trail } = engine.numVars := fun _ flags => flags.numVars
  refine .within (Engine.onTrail_apply _ _) ?_
  unfold Trail.propagateAtRoot
  refine .bind ((Trail.propagate_keeps (fun _ _ _ => moved _ _) kept ⟨upright, .refl _⟩).imp
    (fun _ _ held => held) fun _ _ impossible => impossible.elim) ?_
  rintro conflict trail ⟨⟨uprightAfter, flags⟩, _⟩
  cases conflict with
  | none => exact .pure ⟨uprightAfter, numVars trail flags, rfl⟩
  | some _ => exact .fail ⟨uprightAfter, numVars trail flags⟩

/-- Announcing literals keeps an engine upright. -/
theorem keeps_announce (literals : List Literal) : Keeps (announce literals) engine
    fun _ _ => True := by
  induction literals generalizing engine with
  | nil => exact .pure trivial
  | cons literal rest ih =>
    unfold announce
    exact .step rfl rfl rfl rfl rfl (.step rfl rfl rfl rfl rfl (.step rfl rfl rfl rfl rfl ih))

theorem keeps_propagateUnits : Keeps Engine.propagateUnits engine
    fun _ after => after.trail.literals.size ≤ after.applied := by
  let _ : Realm := .lenient
  have works : Works .propagation Engine.propagateUnits engine fun _ after =>
      after.trail.literals.size ≤ after.applied := Engine.works_propagateUnits
  exact .of_works works

/-- Afterwards all root literals are applied. -/
theorem keeps_settleRoot : Keeps settleRoot engine
    fun _ after => after.trail.literals.size ≤ after.applied := by
  unfold settleRoot
  refine keeps_propagateUnits.bind fun _ settled _ all => ?_
  refine .step rfl rfl rfl rfl rfl (keeps_propagateAtRoot.bind fun _ after _ applied => ?_)
  refine .look Engine.looks_look fun new isNew => ?_
  split
  next none =>
    refine .pure ?_
    rw [isNew, List.isEmpty_iff, List.drop_eq_nil_iff, Array.length_toList] at none
    exact (none.trans all).trans applied.ge
  next => exact (keeps_announce new).bind fun _ _ _ _ => keeps_propagateUnits

/-- After a probe its level is closed. Literals that were assigned before may have lost
their values; since all of them are applied that does no harm. -/
theorem upright_closed (upright : engine.Upright)
    (all : engine.trail.literals.size ≤ engine.applied) {trail closed : Trail} {new : List Literal}
    (extends_ : Extends engine engine.trail.literals.toList trail new)
    (levels : trail.levels = #[engine.trail.literals.toList.length])
    (cancelled : trail.cancelUntil 0 = some closed) :
    Engine.Upright { engine with trail := closed } ∧ engine.trail.SameFlags closed := by
  obtain ⟨literals, atRoot, values⟩ :=
    Trail.cancelUntil_spec levels extends_.appended cancelled
  have flags := extends_.flags.trans (Trail.sameFlags_cancelUntil cancelled)
  refine ⟨⟨⟨?_, ⟨atRoot, ?_, ?_, ?_⟩, ?_⟩, ?_, ?_, upright.clean⟩, flags⟩
  · change Filed (2 * closed.vars.size) engine.index engine.arena
    rw [flags.size]
    exact upright.toFiled
  · exact flags.size ▸ upright.trail.small
  · exact flags.size ▸ upright.trail.nonempty
  · exact Trail.agrees_cancelUntil extends_.agrees levels extends_.appended cancelled
  · intro literal member
    change literal ∈ closed.literals.toList.drop engine.applied at member
    rw [literals, List.drop_eq_nil_of_le (by simpa using all)] at member
    cases member
  · intro stored member
    change FormedOver closed.numVars stored
    rw [flags.numVars]
    exact upright.formed stored member
  · intro literal atRoot
    obtain ⟨onTrail, value⟩ := Trail.mem_facts.1 atRoot
    rw [literals] at onTrail
    refine upright.named literal (Trail.mem_facts.2 ⟨onTrail, ?_⟩)
    rw [values] at value
    split at value
    next =>
      obtain ⟨_, _, impossible⟩ := Option.map_eq_some_iff.1 value
      cases impossible
    next kept => rw [← extends_.values _ kept, value]

/-- A level is opened with a literal. -/
theorem openLevel_extends (upright : engine.Upright)
    (inRange : 0 < literal.var ∧ literal.var ≤ engine.numVars) {failed : Error → Engine → Prop} :
    (Engine.updateTrail fun trail => trail.openLevel literal).Ends engine (fun _ after =>
      ∃ start, after = { engine with trail := start } ∧
        Extends engine engine.trail.literals.toList start [literal] ∧
        start.levels = #[engine.trail.literals.toList.length]) failed := by
  refine Engine.updateTrail_ends fun start opened => ⟨start, rfl, ?_, ?_⟩
  · have leveled : Extends engine engine.trail.literals.toList
        { engine.trail with levels := engine.trail.levels.push engine.trail.literals.size } [] :=
      ⟨upright.trail.agrees, ⟨rfl, fun _ => rfl, rfl, rfl⟩, by simp, nofun, fun _ _ => rfl⟩
    exact leveled.push inRange opened
  · rw [(Trail.push_eq_some opened).2.2.1, upright.trail.atRoot]
    rfl

/-- The complement of a failed literal is assigned. -/
theorem keeps_refute (positive : 0 < literal.var) :
    Keeps (do
      Engine.count fun tally => { tally with failedLiterals := tally.failedLiterals + 1 }
      Engine.assignUnit literal.complement
      Engine.propagateUnits
      return none : Work Unit (Option (List Literal))) state fun result _ => result = none := by
  refine .step rfl rfl rfl rfl rfl ?_
  refine (Keeps.lift (Engine.keeps_assignUnit ?_)).bind fun _ _ _ _ => ?_
  · rwa [Literal.var_complement positive]
  · exact (Keeps.lift keeps_propagateUnits).bind fun _ _ _ _ => .pure rfl

/-- Between the opening and the closing of its level a probe is not at the root. -/
theorem keeps_probe (inRange : 0 < literal.var ∧ literal.var ≤ state.2.numVars) :
    Keeps (probe literal) state fun result after => ∀ implied, result = some implied →
      ∀ other ∈ implied, 0 < other.var ∧ other.var ≤ after.2.numVars := by
  unfold probe
  refine (Keeps.lift keeps_settleRoot).bind ?_
  rintro _ ⟨tool, settled⟩ sameNumVars ⟨_, all⟩
  change settled.numVars = state.2.numVars at sameNumVars
  refine .step rfl rfl rfl rfl rfl ?_
  intro (upright : settled.Upright)
  refine .bind (Run.Ends.lift (openLevel_extends upright (sameNumVars ▸ inRange))) ?_
  rintro _ ⟨tool, _⟩ ⟨_, start, rfl, opens, levels⟩
  refine .bind (Run.Ends.lift (propagate_extends upright opens)) ?_
  rintro conflict ⟨tool, _⟩ ⟨_, trail, new, rfl, extends_, sameLevels⟩
  refine .step rfl (.step rfl ?_)
  have closes : Engine.cancelToRoot.Ends { settled with trail := trail }
      (fun _ after => after.Upright ∧ after.numVars = settled.numVars) fun _ _ => False := by
    refine Engine.updateTrail_ends fun closed cancelled => ?_
    obtain ⟨uprightClosed, flags⟩ :=
      upright_closed upright all extends_ (sameLevels.trans levels) cancelled
    exact ⟨uprightClosed, flags.numVars⟩
  refine .bind (Run.Ends.lift (closes.imp (fun _ _ held => held) fun _ _ no => no.elim)) ?_
  rintro _ ⟨tool, closed⟩ ⟨_, uprightClosed, numVars⟩
  dsimp only at uprightClosed numVars
  split
  next =>
    refine (keeps_refute inRange.1 uprightClosed).imp ?_ ?_
    · rintro result after ⟨uprightAfter, numVarsAfter, rfl⟩
      exact ⟨uprightAfter, numVarsAfter.trans numVars, nofun⟩
    · exact fun _ after ⟨uprightAfter, numVarsAfter⟩ => ⟨uprightAfter, numVarsAfter.trans numVars⟩
  next =>
    refine .pure ⟨uprightClosed, numVars, ?_⟩
    intro implied found other member
    rw [← Option.some.inj found] at member
    change other ∈ trail.literals.toList.drop (settled.trail.literals.size + 1) at member
    rw [extends_.appended, ← List.drop_drop, List.drop_left' (by simp)] at member
    rw [numVars]
    exact extends_.inRange other (List.mem_of_mem_drop member)

/-- Necessary literals are assigned. -/
theorem keeps_assignNecessary {positive : Literal} {literals : List Literal}
    (proper : ∀ literal ∈ literals, 0 < literal.var) :
    Keeps (assignNecessary positive literals) engine fun _ _ => True := by
  induction literals generalizing engine with
  | nil => exact .pure trivial
  | cons literal rest ih =>
    obtain ⟨properFirst, properRest⟩ := List.forall_mem_cons.1 proper
    unfold assignNecessary
    refine .look .read fun value _ => ?_
    split
    · refine .step rfl rfl rfl rfl rfl (.step rfl rfl rfl rfl rfl ?_)
      refine (Engine.keeps_assignUnit properFirst).bind fun _ _ _ _ => ?_
      exact .step rfl rfl rfl rfl rfl (.step rfl rfl rfl rfl rfl
        (.step rfl rfl rfl rfl rfl (ih properRest)))
    · exact ih properRest

/-- Both literals of a variable are probed. -/
theorem keeps_probeVar {name : Nat} (inRange : 0 < name ∧ name ≤ state.2.numVars) :
    Keeps (probeVar name) state fun _ _ => True := by
  refine .of_upright fun (upright : state.2.Upright) => ?_
  have inside := Trail.lt_of_le_numVars upright.trail.nonempty inRange.2
  have sameVar : (Literal.ofVar name true).var = name :=
    Literal.var_ofVar inRange.1 (upright.trail.small_of_lt inside)
  have complementVar : (Literal.ofVar name true).complement.var = name := by
    rw [Literal.var_complement (sameVar.symm ▸ inRange.1), sameVar]
  unfold probeVar
  refine (keeps_probe (by rwa [sameVar])).bind ?_
  rintro (_ | fromPositive) middle numVars _
  · exact .pure trivial
  change middle.2.numVars = state.2.numVars at numVars
  refine (keeps_probe (by rwa [complementVar, numVars])).bind ?_
  rintro (_ | fromNegative) last _ proper
  · exact .pure trivial
  refine (Keeps.lift (keeps_assignNecessary fun literal member => ?_)).bind fun _ _ _ _ => ?_
  · exact (proper fromNegative rfl literal (List.mem_of_mem_filter member)).1
  · exact (Keeps.lift keeps_propagateUnits).imp fun _ _ _ => trivial

/-- Probing keeps an engine upright. -/
theorem keeps_probeAll {names : List Nat}
    (inRange : ∀ name ∈ names, 0 < name ∧ name ≤ state.2.numVars) :
    Keeps (probeAll names) state fun _ _ => True := by
  induction names generalizing state with
  | nil => exact .pure trivial
  | cons name rest ih =>
    obtain ⟨inRangeFirst, inRangeRest⟩ := List.forall_mem_cons.1 inRange
    unfold probeAll
    have spends : Keeps (Work.spend 1) state fun _ after => after.2 = state.2 :=
      .of_done rfl rfl rfl rfl rfl rfl
    refine spends.bind ?_
    rintro goOn ⟨tool, _⟩ _ rfl
    split
    · refine .look .read fun value _ => ?_
      split
      · have probed : Keeps (probeVar name) (tool, state.2) fun _ _ => True :=
          keeps_probeVar inRangeFirst
        refine probed.bind fun _ after numVars _ => ih ?_
        change after.2.numVars = state.2.numVars at numVars
        rwa [numVars]
      · exact ih inRangeRest
    · exact .pure trivial

theorem keeps_cancelToRoot :
    Keeps (liftM Engine.cancelToRoot : Work Unit Unit) state fun _ _ => True := by
  intro (upright : state.2.Upright)
  let _ : Realm := .lenient
  exact .of_done (Work.cancelToRoot_of_sound upright.sound) ⟨upright, rfl, trivial⟩

/-- Probing all variables keeps an engine upright. -/
theorem keeps_run : Keeps run state fun _ _ => True := by
  unfold run
  refine keeps_cancelToRoot.bind fun _ cancelled _ _ => ?_
  refine (Keeps.lift keeps_propagateUnits).bind fun _ propagated _ _ => ?_
  let _ : Realm := .lenient
  have works : Works .propagation Engine.implications propagated.2 _ := Engine.works_implications
  refine (Keeps.lift (.of_works works)).bind fun graph known _ _ => ?_
  refine .look Engine.looks_look.lift ?_
  rintro _ rfl
  refine .look .access fun names ordered => ?_
  refine keeps_probeAll fun name member => ?_
  obtain ⟨⟨roots, others⟩, classified, rfl⟩ := Option.map_eq_some_iff.1 ordered
  have inRange := (edge_of_classify? classified (List.mem_append.1 member)).1
  rw [List.mem_range'_1] at inRange
  exact ⟨inRange.1, by omega⟩

theorem keeps_process : Keeps process state fun _ _ => True := by
  refine Work.keeps_process fun tool => ?_
  refine keeps_run.attempt.bind fun result _ _ _ => keeps_cancelToRoot.bind fun _ _ _ _ => ?_
  cases result with
  | ok _ => exact .pure trivial
  | error _ => exact .fail

end Probing

namespace Toolbox

theorem keeps_use {τ α : Type} {get : Toolbox → Tool τ} {put : Tool τ → Toolbox → Toolbox}
    {body : Work τ α} {state : Toolbox × Engine}
    (keeps : Keeps body (get state.1, state.2) fun _ _ => True) :
    Keeps (use get put body) state fun _ _ => True :=
  fun upright => .within (use_apply get put body state) (keeps upright)

/-- Every technique keeps an engine upright, whatever the tools are like. -/
theorem upright_process (technique : Technique) {state : Toolbox × Engine}
    (upright : state.2.Upright) :
    (process technique).Ends state (fun _ after => after.2.Upright) fun _ after => after.2.Upright := by
  let _ : Realm := .lenient
  by_cases renumbering : technique = .renumbering
  · subst renumbering
    have ends := @Numbering.process_ends _ .removal (state.1.renumbering, state.2) upright.sound
    unfold process useRenumbering
    refine (use_ends ends).imp ?_ fun _ _ impossible => impossible.elim
    rintro status ⟨tools, engine⟩ ⟨_, _, concludes, _⟩
    exact concludes.upright upright
  by_cases probing : technique = .probing
  · subst probing
    unfold process
    exact (keeps_use Probing.keeps_process upright).imp (fun _ _ kept => kept.1) fun _ _ kept => kept.1
  · refine (process_ends technique renumbering upright.sound fun same => absurd same probing).imp ?_
      fun _ _ impossible => impossible.elim
    exact fun status after ⟨concludes, _⟩ => concludes.upright upright

end Toolbox

namespace Engine

variable {engine after : Engine}

/-! ## Sequences of operations -/

/-- An operation on an engine. -/
inductive Operation where
  | addClause (literals : List Literal) (redundant : Bool)
  | importClause (literals : List Literal) (redundant : Bool)
  | assignUnit (literal : Literal)
  | removeClause (handle : Handle)
  | removeWithRecord (handle : Handle) (chosen : Literal)
  | replaceClause (handle : Handle) (literals : List Literal)
  | strengthen (handle : Handle) (literal : Literal)
  | makeIrredundant (handle : Handle)
  | releaseClauses
  | compact
  | newVar
  /-- A technique is used, by tools in any state. -/
  | process (technique : Technique) (tools : Toolbox)

/-- Use a technique and forget about the tools. -/
def processWith (technique : Technique) (tools : Toolbox) : Run Engine Status := fun engine =>
  (Toolbox.process technique (tools, engine)).mapState Prod.snd

/-- Perform an operation. -/
def perform : Operation → Run Engine Unit
  | .addClause literals redundant => discard (addClause literals redundant)
  | .importClause literals redundant => discard (importClause literals redundant)
  | .assignUnit literal => assignUnit literal
  | .removeClause handle => removeClause handle
  | .removeWithRecord handle chosen => removeWithRecord handle chosen
  | .replaceClause handle literals => discard (replaceClause handle literals)
  | .strengthen handle literal => strengthen handle literal
  | .makeIrredundant handle => makeIrredundant handle
  | .releaseClauses => releaseClauses
  | .compact => discard compact
  | .newVar => handle .newVar
  | .process technique tools => discard (processWith technique tools)

/-- What an operation asks for: a clause that it works on is live, a literal to be
taken out is there, and a literal to be assigned is one of a variable. -/
def Allows (engine : Engine) : Operation → Prop
  | .assignUnit literal => 0 < literal.var
  | .removeClause handle | .removeWithRecord handle _ | .replaceClause handle _
  | .makeIrredundant handle => (engine.arena.live? handle).isSome
  | .strengthen handle literal => ∃ clause ∈ engine.arena.live? handle, literal ∈ clause.literals
  | _ => True

/-- The engines that sequences of operations lead to from the engine without clauses,
whether an operation is done or fails. -/
inductive Reachable (settings : Settings) (numVars : Nat) : Engine → Prop where
  | start : Reachable settings numVars (ofVars settings numVars)
  | done {engine after : Engine} {operation : Operation} (reached : Reachable settings numVars engine)
      (ended : perform operation engine = .done () after) (allows : engine.Allows operation) :
      Reachable settings numVars after
  | failed {engine after : Engine} {operation : Operation} {cause : Error}
      (reached : Reachable settings numVars engine)
      (ended : perform operation engine = .failed cause after) (allows : engine.Allows operation) :
      Reachable settings numVars after

/-- An operation leaves an upright engine upright. -/
theorem upright_perform {operation : Operation} (upright : engine.Upright)
    (allows : engine.Allows operation) :
    (perform operation).Ends engine (fun _ after => after.Upright) fun _ after => after.Upright := by
  have of_keeps : ∀ {α : Type} {body : Run Engine α} {post : α → Engine → Prop},
      Keeps body engine post → body.Ends engine (fun _ after => after.Upright)
        fun _ after => after.Upright := fun keeps =>
    (keeps upright).imp (fun _ _ kept => kept.1) fun _ _ kept => kept.1
  have of_discard : ∀ {α : Type} {body : Run Engine α} {post : α → Engine → Prop},
      Keeps body engine post → (discard body).Ends engine (fun _ after => after.Upright)
        fun _ after => after.Upright := fun keeps =>
    (of_keeps keeps).bind fun _ _ held => .pure held
  cases operation with
  | addClause => exact of_discard keeps_storeClause
  | importClause => exact of_discard keeps_storeClause
  | assignUnit => exact of_keeps (keeps_assignUnit allows)
  | removeClause =>
    obtain ⟨clause, live⟩ := Option.isSome_iff_exists.1 allows
    exact of_keeps (keeps_removeClause live)
  | removeWithRecord =>
    obtain ⟨clause, live⟩ := Option.isSome_iff_exists.1 allows
    exact of_keeps (keeps_removeWithRecord live)
  | replaceClause =>
    obtain ⟨clause, live⟩ := Option.isSome_iff_exists.1 allows
    exact of_discard (keeps_replaceClause live)
  | strengthen =>
    obtain ⟨clause, live, inside⟩ := allows
    exact of_keeps (keeps_strengthen live inside)
  | makeIrredundant =>
    obtain ⟨clause, live⟩ := Option.isSome_iff_exists.1 allows
    exact of_keeps (keeps_makeIrredundant live)
  | releaseClauses => exact of_keeps keeps_releaseClauses
  | compact => exact of_discard keeps_compact
  | newVar => exact handle_newVar_ends fun room => upright_widened upright room
  | process technique tools =>
    have processed : (processWith technique tools).Ends engine (fun _ after => after.Upright)
        fun _ after => after.Upright :=
      .within rfl (Toolbox.upright_process technique upright)
    exact processed.bind fun _ _ held => .pure held

/-- Every reachable engine is upright. -/
theorem Reachable.upright {settings : Settings} {numVars : Nat} (small : numVars < 2 ^ 31)
    (reached : Reachable settings numVars engine) : engine.Upright := by
  induction reached with
  | start => exact upright_ofVars settings small
  | done _ ended allows upright => exact (upright_perform upright allows).done_of_eq ended
  | failed _ ended allows upright => exact (upright_perform upright allows).failed_of_eq ended

/-- Whatever operations were used, the clauses, the index and the counters agree, and
there are at least as many slots as live clauses. -/
theorem consistent_of_reachable {settings : Settings} {numVars : Nat} (small : numVars < 2 ^ 31)
    (reached : Reachable settings numVars engine) :
    engine.Consistent ∧ engine.arena.active ≤ engine.arena.slots.size :=
  have consistent := (reached.upright small).consistent
  ⟨consistent, consistent.active_le⟩

/-- Two clauses become one by subsumption, and then the empty clause is refused. -/
theorem consistent_of_reachable_refused :
    ∃ engine, 3 < 2 ^ 31 ∧ Reachable {} 3 engine ∧ engine.arena.slots.size = 2 ∧
      engine.arena.active = 1 ∧ engine.arena.literals = 2 ∧ engine.Consistent := by
  obtain ⟨_, first, endedFirst, _, second, endedSecond, _, third, endedThird, answer, last,
      attempted, isLast⟩ :
      (perform (.importClause [.ofInt 1, .ofInt 2, .ofInt 3] false)).Returns (ofVars {} 3)
        fun _ first =>
          (perform (.importClause [.ofInt (-1), .ofInt 2, .ofInt 3] false)).Returns first
            fun _ second => (perform (.process .subsumption {})).Returns second fun _ third =>
              (perform (.addClause [] false)).attempt.Returns third fun answer last =>
                decide (answer = .error .emptyClause ∧ last.arena.slots.size = 2 ∧
                  last.arena.active = 1 ∧ last.arena.literals = 2) := by
    decide +kernel
  obtain ⟨rfl, size, active, literals⟩ := of_decide_eq_true isLast
  have reached : Reachable {} 3 last :=
    .failed (.done (.done (.done .start endedFirst trivial) endedSecond trivial) endedThird trivial)
      (Run.failed_of_attempt attempted) trivial
  exact ⟨last, by decide, reached, size, active, literals,
    (consistent_of_reachable (by decide) reached).1⟩

end Engine

end CnfSimplifier
