import CnfSimplifier.Proofs.IdleTools
import CnfSimplifier.Proofs.UnnumberedTechniques

/-!
# Runs with and without a numbering

Every call but a run takes no notice of the numbering, and a run does so up to the
step that numbers the variables. On a sound engine this step always succeeds and
changes nothing but the numbering. So a run goes the same way whether or not the
variables are to be numbered at its end.
-/
namespace CnfSimplifier

open Engine

/-- The tools without a numbering. -/
def Toolbox.unnumbered (tools : Toolbox) : Toolbox := { tools with renumbering := { own := {} } }

instance : HasNumbering Simplifier where
  unnumbered simplifier :=
    { simplifier with
      engine := simplifier.engine.unnumbered
      tools := simplifier.tools.unnumbered }
  unnumbered_twice _ := rfl

namespace Simplifier

variable {α : Type} {first second : Simplifier} {technique : Technique}

/-- Simplifiers that differ in the numbering only have the same engine otherwise. -/
theorem engine_eq (same : unnumbered first = unnumbered second) :
    first.engine.unnumbered = second.engine.unnumbered := congrArg Simplifier.engine same

/-! ## Parts -/

/-- Work on the engine takes as little notice within the simplifier. -/
theorem ignores_onEngine {body : Run Engine α} (ignores : IgnoresNumbering body) :
    IgnoresNumbering (liftM body : Run Simplifier α) :=
  @IgnoresNumbering.within _ _ _ _ _ _ body Simplifier.engine
    (fun simplifier engine => { simplifier with engine := engine }) (lift_apply body)
    (fun _ => rfl)
    (fun simplifier _ _ same => congrArg
      (fun engine => Simplifier.mk engine simplifier.tools.unnumbered simplifier.runs) same)
    ignores

/-- A change of the tools that leaves the numbering aside. -/
theorem ignores_updateTools {change : Toolbox → Option Toolbox}
    (same : ∀ tools : Toolbox, (change tools.unnumbered).map Toolbox.unnumbered =
      (change tools).map Toolbox.unnumbered) : IgnoresNumbering (updateTools change) :=
  .update fun simplifier => by
    have here := same simplifier.tools
    change ((change simplifier.tools.unnumbered).bind _).map _ =
      ((change simplifier.tools).bind _).map _
    generalize change simplifier.tools.unnumbered = bare, change simplifier.tools = full at here ⊢
    cases bare <;> cases full
    case none.none => rfl
    case some.some bare full =>
      exact congrArg (fun tools => some (Simplifier.mk simplifier.engine.unnumbered tools
        simplifier.runs)) (Option.some.inj here)
    all_goals cases here

/-- Use of a tool that is not the one for numbering. -/
theorem ignores_onTools {τ : Type} {get : Toolbox → Tool τ} {put : Tool τ → Toolbox → Toolbox}
    {body : Work τ α} (ignores : IgnoresNumbering body)
    (gets : ∀ tools, get (Toolbox.unnumbered tools) = get tools)
    (puts : ∀ tool tools, (put tool (Toolbox.unnumbered tools)).unnumbered =
      (put tool tools).unnumbered) :
    IgnoresNumbering (onTools (Toolbox.use get put body)) := by
  refine @IgnoresNumbering.within _ _ _ _ _ _ body
    (fun simplifier => (get simplifier.tools, simplifier.engine))
    (fun simplifier part => { simplifier with tools := put part.1 simplifier.tools, engine := part.2 })
    ?_ (fun simplifier => congrArg (Prod.mk · simplifier.engine.unnumbered) (gets _)) ?_ ignores
  · rintro ⟨engine, tools, runs⟩
    unfold onTools Toolbox.use
    dsimp only
    cases body (get tools, engine) <;> rfl
  · intro simplifier first second same
    obtain ⟨tool, engine⟩ := Prod.mk.inj same
    change Simplifier.mk first.2.unnumbered (put first.1 simplifier.tools.unnumbered).unnumbered
      simplifier.runs = Simplifier.mk second.2.unnumbered (put second.1 simplifier.tools).unnumbered
      simplifier.runs
    rw [puts, tool, engine]

/-- No other technique takes notice of the numbering. -/
theorem ignores_process (other : technique ≠ .renumbering) :
    IgnoresNumbering (onTools (Toolbox.process technique)) := by
  unfold Toolbox.process Toolbox.useSubsumption Toolbox.useElimination
  cases technique with
  | renumbering => exact absurd rfl other
  | units => exact ignores_onTools Units.ignores_process (fun _ => rfl) fun _ _ => rfl
  | twoSat => exact ignores_onTools TwoSat.ignores_process (fun _ => rfl) fun _ _ => rfl
  | subsumption => exact ignores_onTools Subsumer.ignores_process (fun _ => rfl) fun _ _ => rfl
  | equivalences => exact ignores_onTools Equivalence.ignores_process (fun _ => rfl) fun _ _ => rfl
  | probing => exact ignores_onTools Probing.ignores_process (fun _ => rfl) fun _ _ => rfl
  | elimination => exact ignores_onTools Eliminator.ignores_process (fun _ => rfl) fun _ _ => rfl
  | batchElimination =>
    exact ignores_onTools BatchEliminator.ignores_process (fun _ => rfl) fun _ _ => rfl
  | blockedClauses =>
    exact ignores_onTools BlockedQueue.ignores_process (fun _ => rfl) fun _ _ => rfl

/-- A new variable takes no notice of the numbering. -/
theorem ignores_newVar : IgnoresNumbering newVar := by
  refine .bind (.bind (ignores_onEngine ignores_handle) fun _ => ignores_updateTools fun _ => rfl)
    fun _ => .afterGet (fun _ => rfl) fun seen => .bind (ignores_updateTools fun tools => ?_)
    fun _ => .pure
  have plain (tools : Toolbox) : (numberVar seen.numVars tools).unnumbered = tools.unnumbered := by
    unfold numberVar
    dsimp only
    split <;> rfl
  exact congrArg some ((plain _).trans (plain tools).symm)

theorem ignores_newVars {count : Nat} : IgnoresNumbering (newVars count) := by
  induction count with
  | zero => exact .pure
  | succ count ih => exact ignores_newVar.bind fun _ => ih

theorem ignores_reserve {numVars : Nat} : IgnoresNumbering (reserve numVars) :=
  .afterGet (fun _ => rfl) fun _ => ignores_newVars

theorem ignores_checkPresent {literal : Literal} : IgnoresNumbering (checkPresent literal) := by
  refine .bind (.read fun _ => rfl) fun flags => ?_
  split
  · exact .fail
  · exact .pure

theorem ignores_readLiterals {clause : List Int} : IgnoresNumbering (readLiterals clause) := by
  fun_induction readLiterals clause with
  | case1 => exact .pure
  | case2 => exact .fail
  | case3 value rest nonzero literal ih =>
    exact ignores_reserve.bind fun _ => ignores_checkPresent.bind fun _ => ih.bind fun _ => .pure

/-- A clause is read and stored under the names that are given. -/
theorem ignores_addClause {clause : List Int} : IgnoresNumbering (addClause clause) := by
  refine ignores_readLiterals.bind fun literals =>
    (ignores_onEngine (IgnoresNumbering.attempt ignores_storeClause)).bind fun answer => ?_
  split
  · exact .pure
  · exact (ignores_onEngine ignores_conclude).bind fun _ => .fail

theorem ignores_addClauses {clauses : List (List Int)} : IgnoresNumbering (addClauses clauses) := by
  induction clauses with
  | nil => exact .pure
  | cons clause rest ih =>
    refine ignores_addClause.attempt.bind fun answer => ?_
    split
    · exact ih
    split
    · exact ih
    · exact .fail

theorem ignores_freeze {name : Nat} : IgnoresNumbering (freeze name) := by
  refine .afterGet (fun _ => rfl) fun seen => ?_
  split
  · exact .fail
  · exact ignores_checkPresent.bind fun _ => ignores_onEngine ignores_updateTrail

/-! ## Calls -/

/-! ## Runs -/

/-- Compaction moves clauses, whatever the numbering. -/
theorem ignores_collectGarbage : IgnoresNumbering collectGarbage := by
  refine .afterGet (fun _ => rfl) fun seen => ?_
  dsimp only
  split
  · refine (ignores_onEngine ignores_compact).bind fun relocation =>
      ignores_updateTools fun tools => ?_
    unfold Toolbox.relocate
    simp only [Option.bind_eq_bind, Option.pure_def, Option.map_bind, Function.comp_def,
      Option.map_some]
    rfl
  · exact .pure

/-- Whether a technique runs is up to its own settings. -/
theorem ignores_runTechnique (other : technique ≠ .renumbering) :
    IgnoresNumbering (runTechnique technique) := by
  have budgets (change : Budget → Budget) : IgnoresNumbering (updateTools fun tools =>
      some (tools.modifyBudget change technique)) :=
    ignores_updateTools fun tools => by cases technique <;> rfl
  refine .afterGet (fun simplifier => ?_) fun seen => ?_
  · cases technique with
    | renumbering => exact absurd rfl other
    | _ => rfl
  refine (budgets _).bind fun _ => ?_
  split
  · refine .afterGet (fun _ => rfl) fun before => (ignores_process other).bind fun status =>
      .afterGet (fun _ => rfl) fun after => (budgets _).bind fun _ => ?_
    refine .afterGet (fun simplifier => ?_) fun last => (ignores_onEngine ignores_tell).bind
      fun _ => .pure
    cases technique with
    | renumbering => exact absurd rfl other
    | _ => rfl
  · exact (ignores_onEngine ignores_tell).bind fun _ => .pure

/-- The stages of a pass, up to the numbering. -/
theorem ignores_runStages {pass : Nat} {stages : List Stage} :
    IgnoresNumbering (runStages pass stages) := by
  induction stages with
  | nil => exact .pure
  | cons stage rest ih =>
    refine .afterGet (fun _ => rfl) fun seen => ?_
    dsimp only
    split
    · exact (ignores_onEngine ignores_tell).bind fun _ => .pure
    split
    · exact ih
    next technique found =>
      refine (ignores_runTechnique (Stage.technique?_ne_renumbering found)).bind fun status => ?_
      split
      · exact .pure
      · exact .pure
      refine .afterGet (fun _ => rfl) fun after => ?_
      split
      · exact .pure
      · exact ignores_collectGarbage.bind fun _ => ih

/-- Passes go on while they change the formula. -/
theorem ignores_runPasses {remaining pass : Nat} : IgnoresNumbering (runPasses remaining pass) := by
  induction remaining generalizing pass with
  | zero => exact .pure
  | succ remaining ih =>
    refine .afterGet (fun _ => rfl) fun before => ignores_runStages.bind fun ended => ?_
    split
    · exact .pure
    refine .afterGet (fun _ => rfl) fun after => (ignores_onEngine ignores_tell).bind fun _ => ?_
    split
    · exact .pure
    · exact ih

/-! ## Whole runs -/

/-- The part of the end of a run that refreshes the phases. -/
def refresh : Run Simplifier Unit := do
  let engine := (← get).engine
  if engine.settings.twoSat && !engine.interrupted then
    let _ ← onTools (Toolbox.process .twoSat)

/-- A run is finished by refreshing the state and numbering the variables. -/
theorem finish_eq (inprocessing : Bool) :
    finish inprocessing = refresh >>= fun _ => number inprocessing := by
  funext simplifier
  change _ = ((if simplifier.engine.settings.twoSat && !simplifier.engine.interrupted then do
      let _ ← onTools (Toolbox.process .twoSat)
      pure ()
    else pure () : Run Simplifier Unit) >>= fun _ => number inprocessing) simplifier
  unfold finish
  rw [Run.bind_of_done (Run.get_apply simplifier)]
  dsimp only
  split
  · rw [bind_assoc]
    rfl
  · rfl

/-- All that is refreshed is in the bare state. -/
theorem ignores_refresh : IgnoresNumbering refresh := by
  refine .afterGet (fun _ => rfl) fun seen => ?_
  dsimp only
  split
  · exact (ignores_process (by decide)).bind fun _ => .pure
  · exact .pure

/-- How a run begins: it is marked as such, and all decisions are undone. The answer
is the number of passes. -/
def opening (inprocessing : Bool) (runs : Nat) : Run Simplifier Nat := do
  (modify fun engine => { engine with inprocessing := inprocessing } : Run Engine Unit)
  Engine.cancelToRoot
  let engine := (← get).engine
  Engine.tell (.began inprocessing runs engine.numVars (wordOf engine.arena.active))
  return engine.settings.passes.toNat

theorem ignores_opening {inprocessing : Bool} {runs : Nat} :
    IgnoresNumbering (opening inprocessing runs) :=
  (ignores_onEngine (.modify fun _ => rfl)).bind fun _ =>
    (ignores_onEngine ignores_updateTrail).bind fun _ => .afterGet (fun _ => rfl) fun _ =>
      (ignores_onEngine ignores_tell).bind fun _ => .pure

/-- Forgetting takes no notice of it. -/
theorem forget_unnumbered (other : technique ≠ .renumbering) (tools : Toolbox) :
    tools.unnumbered.forget technique = (tools.forget technique).map Toolbox.unnumbered := by
  cases technique with
  | renumbering => exact absurd rfl other
  | elimination =>
    unfold Toolbox.forget Toolbox.reset
    simp only [Option.bind_eq_bind, Option.pure_def, Option.map_bind, Function.comp_def,
      Option.map_some]
    rfl
  | _ => rfl

/-- All tools forget regardless of it. -/
theorem forgetAll_unnumbered (tools : Toolbox) :
    tools.unnumbered.forgetAll = tools.forgetAll.map Toolbox.unnumbered := by
  have through : ∀ techniques : List Technique, .renumbering ∉ techniques → ∀ tools : Toolbox,
      techniques.foldlM (fun tools technique => Toolbox.forget technique tools) tools.unnumbered =
        (techniques.foldlM (fun tools technique => Toolbox.forget technique tools) tools).map
          Toolbox.unnumbered := by
    intro techniques
    induction techniques with
    | nil => exact fun _ _ => rfl
    | cons technique rest ih =>
      intro others tools
      have other : technique ≠ .renumbering := fun same => others (same ▸ List.mem_cons_self)
      rw [List.foldlM_cons, List.foldlM_cons, forget_unnumbered other]
      cases tools.forget technique with
      | none => rfl
      | some middle => exact ih (fun member => others (List.mem_cons_of_mem _ member)) middle
  exact through Toolbox.passes (by decide) tools

theorem ignores_close : IgnoresNumbering close := by
  refine .bind (ignores_updateTools fun tools => ?_) fun _ => ignores_collectGarbage.bind fun _ =>
    (ignores_onEngine (.modify fun _ => rfl)).bind fun _ => .afterGet (fun _ => rfl) fun _ =>
      (ignores_onEngine ignores_tell).bind fun _ => .pure
  rw [forgetAll_unnumbered, Option.map_map]
  rfl

/-- A run on an open formula is its opening, its passes and its finish. -/
theorem run_of_open {inprocessing : Bool} {simplifier : Simplifier} (isOpen : simplifier.engine.unsat = false)
    (intact : simplifier.engine.poisoned = none) :
    run inprocessing simplifier = (do
      let passes ← opening inprocessing (simplifier.runs + 1)
      let status ← runPasses passes 1
      if status ≠ Status.unsat then finish inprocessing
      close) { simplifier with runs := simplifier.runs + 1 } := by
  unfold run
  rw [Run.bind_of_done (Run.modify_apply _ simplifier), Run.bind_of_done (Run.get_apply _)]
  dsimp only
  rw [isOpen, intact]
  unfold opening
  simp only [bind_assoc, pure_bind]
  rfl

section OfSound

variable [Realm] {simplifier before : Simplifier} {inprocessing : Bool}

/-- The tool for numbering leaves all of the engine but its notices. -/
theorem numbering_returns (tool : Tool Numbering) (sound : simplifier.engine.Sound) :
    Numbering.process.Returns (tool, simplifier.engine) fun _ after =>
      after.2.unnumbered = simplifier.engine.unnumbered := by
  unfold Numbering.process
  refine .step rfl (.step rfl (.bind (Numbering.build_returns _ sound) ?_))
  rintro _ ⟨tool, _⟩ rfl
  exact .step rfl (.step rfl (.step rfl (.of_done rfl rfl)))

/-- Numbering the variables of a sound formula succeeds and changes nothing else. -/
theorem number_returns (inprocessing : Bool)
    (sound : simplifier.engine.unsat = true ∨ simplifier.engine.Sound) :
    (number inprocessing).Returns simplifier
      fun _ after => unnumbered after = unnumbered simplifier := by
  unfold number
  refine .step rfl ?_
  split
  next asked =>
    have isOpen : simplifier.engine.unsat ≠ true := by
      simp only [Bool.and_eq_true, Bool.not_eq_true'] at asked
      simp [asked.1.2]
    obtain ⟨status, ⟨tool, engine⟩, ended, same⟩ :=
      numbering_returns simplifier.tools.renumbering (sound.resolve_left isOpen)
    have onward : onTools (Toolbox.process .renumbering) simplifier = .done status
        ⟨engine, { simplifier.tools with renumbering := tool }, simplifier.runs⟩ := by
      unfold onTools Toolbox.process Toolbox.useRenumbering Toolbox.use
      dsimp only
      rw [ended]
    refine .step onward (.pure ?_)
    exact congrArg (fun engine =>
      Simplifier.mk engine simplifier.tools.unnumbered simplifier.runs) same
  next => exact .pure rfl

/-- What a part of a run came to is sound, or refuted. -/
theorem Reaches.sound {status : Status} (reaches : before.Reaches status simplifier)
    (fit : before.engine.Fit) : simplifier.engine.unsat = true ∨ simplifier.engine.Sound := by
  rcases reaches.decides with ⟨_, leads, _⟩ | ⟨_, refutes⟩
  · exact .inr (leads.sound fit.toSound)
  · exact .inl refutes.unsat

/-- Refreshing the phases comes to something. -/
theorem refresh_ends (fit : simplifier.engine.Fit) : refresh.Ends simplifier
    (fun _ after => ∃ status, simplifier.Reaches status after) fun _ _ => False := by
  unfold refresh
  refine .step rfl ?_
  dsimp only
  split
  · refine .seq (ends_onTools ?_)
    refine (Toolbox.process_ends .twoSat (by decide) fit.toSound nofun).imp ?_
      fun _ _ impossible => impossible
    rintro last ⟨tools, engine⟩ ⟨concludes, renumbering⟩
    exact .pure ⟨last, concludes.of_strict fit.strict, congrArg Tool.own renumbering⟩
  · exact .pure ⟨.unknown, .of_leads rfl (.refl fit.toSound) rfl⟩

/-- The end of a run goes the same way whatever is to become of the numbering. -/
theorem finish_alike (same : unnumbered first = unnumbered second) (firstFit : first.engine.Fit)
    (secondFit : second.engine.Fit) :
    (finish inprocessing first).Alike (finish inprocessing second) := by
  rw [finish_eq]
  apply (ignores_refresh.alike same).bindDone
  intro _ after last ended finished same
  obtain ⟨_, here⟩ := (refresh_ends firstFit).done_of_eq ended
  obtain ⟨_, there⟩ := (refresh_ends secondFit).done_of_eq finished
  obtain ⟨_, numbered, isNumbered, quiet⟩ := number_returns inprocessing (here.sound firstFit)
  obtain ⟨_, other, isOther, silent⟩ := number_returns inprocessing (there.sound secondFit)
  rw [isNumbered, isOther]
  exact .done (quiet.trans (same.trans silent.symm))

/-- What the beginning of a run leaves: but for its mode and a notice, all. -/
structure Opened (inprocessing : Bool) (before : Simplifier) (passes : Nat)
    (after : Simplifier) : Prop where
  fit : after.engine.Fit
  passes : passes = before.engine.settings.passes.toNat
  same : ∃ notices, after = { before with engine :=
    { before.engine with inprocessing := inprocessing, notices := notices } }

theorem Opened.settings {passes : Nat} (opened : Opened inprocessing before passes simplifier) :
    simplifier.engine.settings = before.engine.settings := by
  obtain ⟨notices, rfl⟩ := opened.same
  rfl

/-- How a run begins leaves the engine fit. -/
theorem opening_ends {runs : Nat} (fit : simplifier.engine.Fit) :
    (opening inprocessing runs).Ends simplifier (Opened inprocessing simplifier)
      fun _ _ => False := by
  have leads : ∀ notices, simplifier.engine.Leads .removal { simplifier.engine with
      inprocessing := inprocessing, notices := notices } := fun _ =>
    .of_same fit.toSound rfl rfl rfl rfl rfl rfl rfl rfl rfl
  have atRoot := cancelToRoot_of_sound ((leads simplifier.engine.notices).sound fit.toSound)
  refine .step rfl (.seq (ends_onEngine (.of_done atRoot ?_)))
  exact .step rfl (.step rfl (.pure ⟨(leads _).fit fit, rfl, _, rfl⟩))

/-- A run goes the same way whatever is to become of the numbering. -/
theorem run_alike (same : unnumbered first = unnumbered second)
    (fit : first.engine.unsat = false → first.engine.Fit ∧ second.engine.Fit) :
    (run inprocessing first).Alike (run inprocessing second) := by
  have sameUnsat := congrArg Engine.unsat (engine_eq same)
  have sameRuns : second.runs = first.runs := (congrArg Simplifier.runs same).symm
  have begun : unnumbered { first with runs := first.runs + 1 } =
      unnumbered { second with runs := second.runs + 1 } :=
    congrArg (fun simplifier : Simplifier =>
      { simplifier with runs := simplifier.runs + 1 }) same
  cases closed : first.engine.unsat with
  | true =>
    rw [run_of_closed closed, run_of_closed (sameUnsat.symm.trans closed)]
    exact .done begun
  | false =>
    obtain ⟨firstFit, secondFit⟩ := fit closed
    rw [run_of_open closed firstFit.intact,
      run_of_open (sameUnsat.symm.trans closed) secondFit.intact, sameRuns]
    rw [sameRuns] at begun
    apply (ignores_opening.alike begun).bindDone
    intro passes opened other ended finished alike
    have begins := @opening_ends _ { first with runs := first.runs + 1 }
    have openedFit := ((begins firstFit).done_of_eq ended).fit
    have beginsOther := @opening_ends _ { second with runs := first.runs + 1 }
    have otherFit := ((beginsOther secondFit).done_of_eq finished).fit
    apply (ignores_runPasses.alike alike).bindDone
    intro status after last passed went alike
    by_cases decided : status = .unsat
    · rw [if_neg (not_not_intro decided)]
      exact ignores_close.alike alike
    · rw [if_pos decided]
      have afterFit := ((runPasses_ends passes 1 openedFit).done_of_eq passed).leads decided
      have lastFit := ((runPasses_ends passes 1 otherFit).done_of_eq went).leads decided
      apply (finish_alike alike (afterFit.fit openedFit) (lastFit.fit otherFit)).bind
      exact fun _ _ _ alike => ignores_close.alike alike

end OfSound

end Simplifier
end CnfSimplifier
