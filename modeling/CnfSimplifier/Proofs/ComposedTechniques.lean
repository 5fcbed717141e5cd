import CnfSimplifier.Toolbox
import CnfSimplifier.Proofs.Composition
import CnfSimplifier.Proofs.Equivalence
import CnfSimplifier.Proofs.Elimination
import CnfSimplifier.Proofs.Probing
import CnfSimplifier.Proofs.TwoSat

/-!
# What techniques are made of

Every technique is gone through once, from its innermost loop to its body, with the deeds
that it needs. What it does to its tool is no change of the engine, and what it looks at has
nothing to do with the numbering. Its loops may take whatever turn they like, so nothing is
asked about the state they start from.

Probing is gone through only in part, since it takes back what it assigned, and of batch
elimination only what follows the pass, since it changes clauses first and reports them at
the end.
-/
namespace CnfSimplifier

variable {deed : ∀ α : Type, Run Engine α → Prop} {relation : Engine → Engine → Prop} {τ : Type}

/-- A relation that is kept by every operation that techniques use, also by those that add
clauses, retire variables or suggest phases. -/
class UpheldByTechniques (relation : Engine → Engine → Prop) : Prop
    extends Upheld relation, UpheldByMarks relation where
  storeClause : ∀ {literals : List Literal} {redundant derived : Bool},
    Tracks relation (Engine.storeClause literals redundant derived)
  setPhase : ∀ {name : Nat} {phase : Bool},
    Tracks relation (Engine.updateTrail fun trail => trail.setPhase name phase)
  retire : ∀ {literal representative : Literal},
    Tracks relation (Equivalence.retire literal representative)
  eliminated : ∀ {name : Nat}, Tracks relation (Engine.handle (.eliminated name))

/-! ## What relations allow -/

instance [Composable relation] : MayStop fun _ => Tracks relation := ⟨fun _ => .fail, fun _ => .stop⟩

instance [upheld : UpheldByRemovals relation] : MayRemove fun _ => Tracks relation where
  prove _ := Engine.tracks_prove
  count _ := Engine.tracks_count
  removeClause _ := upheld.removeClause
  removeWithRecord _ _ := upheld.removeWithRecord

instance [upheld : UpheldByMarks relation] : MayMark fun _ => Tracks relation :=
  ⟨upheld.markClause⟩

instance [upheld : Upheld relation] : MayPropagate fun _ => Tracks relation where
  apply := .of_aside fun _ => ⟨rfl, rfl, rfl, rfl, rfl, rfl, Nat.le_succ _⟩
  implications := Engine.tracks_implications
  strengthen _ _ := upheld.strengthen
  makeIrredundant _ := upheld.makeIrredundant
  assignUnit _ := upheld.assignUnit

instance [upheld : UpheldByTechniques relation] : MaySubstitute fun _ => Tracks relation where
  markClause := upheld.markClause
  storeClause _ _ _ := upheld.storeClause
  eliminated _ := upheld.eliminated
  setPhase _ _ := upheld.setPhase
  retire _ _ := upheld.retire

/-- Applying the root literals keeps to every relation that the operations keep. -/
theorem Engine.tracks_propagateUnits [Upheld relation] : Tracks relation propagateUnits :=
  made_propagateUnits.tracks

/-! ## Tools -/

namespace Work

theorem leaves_own : Leaves (own : Work τ τ) := made_own.leaves

theorem leaves_modifyOwn {change : τ → τ} : Leaves (modifyOwn change) := made_modifyOwn.leaves

theorem leaves_budget : Leaves (budget : Work τ Budget) := made_budget.leaves

theorem leaves_spend {steps : Nat} : Leaves (spend steps : Work τ Bool) := made_spend.leaves

theorem leaves_beginRun : Leaves (beginRun : Work τ Nat) := fun _ _ => .of_done rfl rfl

theorem leaves_startBudget {limit : UInt64} : Leaves (startBudget limit : Work τ Unit) :=
  made_startBudget.leaves

/-- A technique keeps to a relation if its body does. -/
theorem tracks_process [Composable relation] {base : Settings → UInt64} {body : Work τ Unit}
    {notice : Nat → Engine → Budget → Engine → Notice} (tracks : Tracks relation body) :
    Tracks relation (Work.process base body notice) :=
  .after leaves_beginRun fun _ => .after (.lift Engine.leaves_get) fun _ =>
    .after leaves_startBudget fun _ => .bind tracks.attempt fun _ =>
    .after leaves_budget fun _ => .after (.lift Engine.leaves_get) fun _ =>
    .bind (.lift Engine.tracks_tell) fun _ => .lift Engine.tracks_conclude

/-- A technique that tidies up after its body, whatever that came to. -/
theorem tracks_tidied [Composable relation] {body : Work τ Unit} {between : Work τ Unit}
    (tracks : Tracks relation body) (onward : Tracks relation between) : Tracks relation (do
      let result ← body.attempt
      between
      match result with
      | .ok () => pure ()
      | .error cause => Run.fail cause : Work τ Unit) := by
  refine .bind tracks.attempt fun result => .bind onward fun _ => ?_
  cases result with
  | ok done => exact .pure
  | error cause => exact .fail

end Work

/-- Work with one tool of the box puts the tool back where it was. -/
theorem Toolbox.use_apply {α : Type} (get : Toolbox → Tool τ) (put : Tool τ → Toolbox → Toolbox)
    (body : Work τ α) (state : Toolbox × Engine) :
    use get put body state = (body (get state.1, state.2)).mapState fun part =>
      (put part.1 state.1, part.2) := by
  unfold use
  dsimp only
  cases body (get state.1, state.2) <;> rfl

/-! ## Subsumption -/

namespace Subsumer

variable {handle : Handle}

/-- What the start of subsumption is made of. -/
theorem made_start {limit : UInt64} : Made deed (start limit) :=
  .bind Work.made_startBudget fun _ => Work.made_modifyOwn

section Marks

variable [may : MayMark deed]

/-- Putting a clause into the queue marks it. -/
theorem made_enqueue : Made deed (enqueue handle) := by
  refine .bind (.lift (.look fun _ => rfl)) fun found => ?_
  split
  · exact .pure
  · split
    · exact .pure
    · exact .bind (.act (may.markClause (fun _ => rfl) fun _ => rfl)) fun _ =>
        Work.made_modifyOwn

/-- All live clauses are put into the queue. -/
theorem made_gather : Made deed gather :=
  .bind (.lift (.look fun _ => rfl)) fun _ => .forM fun _ => made_enqueue

/-- A clause that was tried is marked. -/
theorem made_settle : Made deed (settle handle) :=
  .deed (may.markClause (fun _ => rfl) fun _ => rfl)

/-- A clause that leaves the queue is marked. -/
theorem made_unqueue : Made deed (unqueue handle) :=
  .deed (may.markClause (fun _ => rfl) fun _ => rfl)

end Marks

variable [may : MayPropagate deed] [marks : MayMark deed]

/-- Subsuming and strengthening the clauses of one list. -/
theorem made_backwardOn (handle : Handle) (literals : List Literal) (others : List Handle) :
    Made deed (backwardOn handle literals others) := by
  induction others with
  | nil => exact .pure
  | cons other rest ih =>
    unfold backwardOn
    split
    · exact ih
    · refine .bind (.lift (.look fun _ => rfl)) fun found => ?_
      split
      · exact ih
      next clause =>
        split
        · exact ih
        · refine .bind Work.made_spend fun goOn => ?_
          split
          · split
            · have remove : Made deed (do
                  Engine.removeClause other
                  Engine.count fun tally => { tally with subsumed := tally.subsumed + 1 }
                  backwardOn handle literals rest : Work Subsumer Unit) :=
                .bind (.act (may.removeClause _)) fun _ =>
                  .bind (.lift Engine.made_count) fun _ => ih
              split
              · exact remove
              · exact .bind (.act (may.makeIrredundant _)) fun _ => remove
            · exact .bind (.act (may.strengthen _ _)) fun _ => .bind made_enqueue fun _ => ih
            · exact ih
          · exact .pure

/-- Subsuming and strengthening others by a clause. -/
theorem made_backward : Made deed (backward handle) := by
  refine .bind (.lift Engine.made_clause) fun clause => .bind (.read fun _ => rfl) fun counts => ?_
  split
  · exact .pure
  · exact .bind (.lift Engine.made_occurrences) fun _ =>
      .bind (.lift Engine.made_occurrences) fun _ => made_backwardOn _ _ _

/-- Subsuming or strengthening a clause by those of one list. -/
theorem made_forwardAgainst (handle : Handle) (size : Nat) (others : List Handle) :
    Made deed (forwardAgainst handle size others) := by
  induction others with
  | nil => exact .pure
  | cons other rest ih =>
    unfold forwardAgainst
    split
    · exact ih
    · refine .bind (.lift (.look fun _ => rfl)) fun found => ?_
      split
      · exact ih
      next subsumer =>
        split
        · exact ih
        · refine .bind Work.made_spend fun goOn => ?_
          split
          · refine .bind (.lift Engine.made_clause) fun clause => ?_
            split
            · exact .pure
            · split
              · have remove : Made deed (do
                    Engine.removeClause handle
                    Engine.count fun tally => { tally with subsumed := tally.subsumed + 1 }
                    return Look.finished : Work Subsumer Look) :=
                  .bind (.act (may.removeClause _)) fun _ =>
                    .bind (.lift Engine.made_count) fun _ => .pure
                split
                · exact remove
                · exact .bind (.act (may.makeIrredundant _)) fun _ => remove
              · refine .bind (.act (may.strengthen _ _)) fun _ =>
                  .bind (.act (marks.markClause ?_ ?_)) fun _ => .pure
                · intro flags
                  split <;> rfl
                · intro flags
                  split <;> rfl
              · exact ih
          · exact .pure

/-- Subsuming or strengthening a clause by those of its literals. -/
theorem made_forwardThrough (handle : Handle) (size : Nat) (literals : List Literal) :
    Made deed (forwardThrough handle size literals) := by
  induction literals with
  | nil => exact .pure
  | cons literal rest ih =>
    refine .bind (.lift Engine.made_occurrences) fun _ =>
      .bind (made_forwardAgainst _ _ _) fun look => ?_
    split
    · exact ih
    · exact .pure

/-- Subsuming a clause again while it gets shorter. -/
theorem made_forwardLoop (handle : Handle) (fuel : Nat) :
    Made deed (forwardLoop handle fuel) := by
  induction fuel with
  | zero => exact .stop (may.stop _)
  | succ fuel ih =>
    refine .bind (.lift Engine.made_clause) fun clause => ?_
    split
    · exact .pure
    · refine .bind (made_forwardThrough _ _ _) fun look => ?_
      split
      · exact ih
      · exact .pure

omit marks in
/-- Removing hidden literals of a clause, or the clause. -/
theorem made_hiddenLoop (graph : Implications) (handle : Handle) (fuel : Nat) :
    Made deed (hiddenLoop graph handle fuel) := by
  induction fuel with
  | zero => exact .stop (may.stop _)
  | succ fuel ih =>
    refine .bind (.lift Engine.made_clause) fun clause => ?_
    split
    · exact .pure
    · refine .bind Work.made_spend fun goOn => ?_
      split
      · refine .bind .access fun hidden => ?_
        split
        · exact .bind (.act (may.removeClause _)) fun _ =>
            .bind (.lift Engine.made_count) fun _ => .pure
        · refine .bind .access fun found => ?_
          split
          · exact .bind (.act (may.strengthen _ _)) fun _ =>
              .bind (.lift Engine.made_count) fun _ => ih
          · exact .pure
      · exact .pure

omit marks in
/-- Looking for hidden literals if there is a graph. -/
theorem made_hidden : Made deed (hidden handle) := by
  refine .bind Work.made_own fun own => ?_
  split
  · exact .pure
  · exact .bind (.lift Engine.made_clause) fun _ => made_hiddenLoop _ _ _

/-- Everything that is tried with one clause. -/
theorem made_simplifyClause : Made deed (simplifyClause handle) := by
  have propagates : Made deed (liftM Engine.propagateUnits : Work Subsumer Unit) :=
    .lift Engine.made_propagateUnits
  refine .bind made_hidden fun gone => ?_
  split
  · exact propagates
  · refine .bind (.bind (.lift Engine.made_clause) fun _ => made_forwardLoop _ _) fun _ =>
      .bind (.lift Engine.made_clause) fun clause => ?_
    split
    · exact propagates
    · exact .bind made_backward fun _ => .bind (.lift made_settle) fun _ => propagates

/-- Working through the queue as far as the fuel lasts. -/
theorem made_drainLoop (fuel : Nat) : Made deed (drainLoop fuel) := by
  induction fuel with
  | zero => exact .stop (may.stop _)
  | succ fuel ih =>
    refine .bind Work.made_own fun own => ?_
    split
    · exact .pure
    · refine .bind Work.made_modifyOwn fun _ =>
        .bind (.lift (.look fun _ => rfl)) fun found => ?_
      split
      · exact ih
      next clause =>
        refine .bind (.lift made_unqueue) fun _ => ?_
        split
        · exact ih
        · refine .bind Work.made_spend fun goOn => ?_
          split
          · refine .bind (.lift (.look fun _ => rfl)) fun limit => ?_
            split
            · exact .bind (.lift made_settle) fun _ => ih
            · exact .bind made_simplifyClause fun _ => ih
          · exact .pure

/-- Working through the queue keeps to the relation. -/
theorem made_drain : Made deed drain :=
  .bind Work.made_own fun _ => .bind (.lift (.look fun _ => rfl)) fun _ =>
    .bind (made_drainLoop _) fun _ => .bind Work.made_own fun _ =>
    .bind (.forM fun _ => .lift made_unqueue) fun _ => Work.made_modifyOwn

/-- Filling and draining the queue until nothing comes into it. -/
theorem made_exhaust (fuel : Nat) : Made deed (exhaust fuel) := by
  induction fuel with
  | zero => exact .stop (may.stop _)
  | succ fuel ih =>
    refine .bind made_gather fun _ => .bind Work.made_own fun own => ?_
    split
    · exact .pure
    · refine .bind Work.made_budget fun budget => ?_
      split
      · exact .pure
      · exact .bind made_drain fun _ => ih

/-- What subsumption is made of. -/
theorem made_run : Made deed run := by
  have exhausts : Made deed (do
      let literals ← Engine.look Engine.liveLiterals
      exhaust (literals + 3) : Work Subsumer Unit) :=
    .bind (.lift (.look fun _ => rfl)) fun _ => made_exhaust _
  refine .bind (.lift Engine.made_propagateUnits) fun _ =>
    .bind (.lift (.look fun _ => rfl)) fun binary => ?_
  split
  · exact exhausts
  · exact .bind (.act may.implications) fun _ =>
      .bind Work.made_modifyOwn fun _ => exhausts

/-- Subsumption keeps to every relation that its deeds keep to. -/
theorem tracks_process [Upheld relation] [UpheldByMarks relation] : Tracks relation process :=
  Work.tracks_process (Made.bind Work.made_modifyOwn fun _ => made_run).tracks

end Subsumer

/-! ## Binary clauses -/

section TwoSat

variable [may : MaySubstitute deed]

/-- Assigning literals at the root. -/
theorem made_assignAll (literals : List Literal) :
    Made deed (TwoSat.assignAll literals) := by
  induction literals with
  | nil => exact .pure
  | cons literal rest ih => exact .bind (.deed (may.assignUnit _)) fun _ => ih

/-- Assigning literals at the root that have no value. -/
theorem made_assignOpen (literals : List Literal) :
    Made deed (TwoSat.assignOpen literals) := by
  induction literals with
  | nil => exact .pure
  | cons literal rest ih =>
    refine .bind Engine.made_literalValue fun value => ?_
    split
    · exact .bind (.deed (may.assignUnit _)) fun _ => .bind Engine.made_count fun _ => ih
    · exact ih

/-- Suggesting the phase that solves the binary clauses. -/
theorem made_keepPhase {layers : TwoSat} {name : Nat} :
    Made deed (TwoSat.keepPhase layers name) := by
  refine .bind .access fun isTrue => ?_
  split
  · exact .deed (may.setPhase _ _)
  · refine .bind .access fun isFalse => ?_
    split
    · exact .deed (may.setPhase _ _)
    · exact .pure

omit may in
/-- Solving binary clauses is work on the budget. -/
theorem TwoSat.made_solveWithin [may : MayStop deed] {graph : Implications} : Made deed (solveWithin graph) := by
  have ends : ∀ (tool : Tool Unit) (engine : Engine), solveWithin graph (tool, engine) =
      ((solveWithin graph (tool, engine)).mapState Prod.fst).mapState fun after => (after, engine) := by
    intro tool engine
    unfold solveWithin
    dsimp only
    cases solve engine.trail graph engine.interrupted (start engine.numVars tool.budget) <;> rfl
  refine .beside may.fail may.stop ends fun engine => funext fun tool => ?_
  have same : solve engine.unnumbered.trail graph engine.unnumbered.interrupted
      (start engine.unnumbered.numVars tool.budget) =
      solve engine.trail graph engine.interrupted (start engine.numVars tool.budget) := rfl
  unfold solveWithin
  dsimp only
  rw [same]
  cases solve engine.trail graph engine.interrupted (start engine.numVars tool.budget) <;> rfl

/-- What solving the binary clauses is made of. -/
theorem TwoSat.made_run : Made deed run := by
  refine .bind (.lift Engine.made_propagateUnits) fun _ => .bind (.act may.implications) fun graph => ?_
  split
  · exact .pure
  · refine .bind made_solveWithin fun answer => ?_
    split
    · exact .bind (.lift (made_assignAll _)) fun _ => .fail (may.fail _)
    · refine .bind (.lift (made_assignOpen _)) fun _ => ?_
      split
      · exact .bind (.lift (.look fun _ => rfl)) fun _ =>
          .bind (.forM fun _ => .lift made_keepPhase) fun _ => .lift Engine.made_propagateUnits
      · exact .lift Engine.made_propagateUnits

/-- Solving binary clauses keeps to every relation of techniques. -/
theorem tracks_twoSat [UpheldByTechniques relation] : Tracks relation TwoSat.process :=
  Work.tracks_process TwoSat.made_run.tracks

end TwoSat

/-! ## Equivalent literals -/

namespace Equivalence

variable [may : MaySubstitute deed]

/-- Which literal is frozen has nothing to do with the numbering. -/
theorem firstFrozen?_unnumbered (engine : Engine) (members : List Literal) :
    firstFrozen? engine.unnumbered members = firstFrozen? engine members := by
  induction members with
  | nil => rfl
  | cons literal rest ih =>
    unfold firstFrozen?
    simp only [ih]
    rfl

/-- Nor has what stands for the members of a component. -/
theorem assignMembers?_unnumbered (engine : Engine) (representative : Literal)
    (members : List Literal) (substitution : Substitution) :
    assignMembers? engine.unnumbered representative members substitution =
      assignMembers? engine representative members substitution := by
  induction members generalizing substitution with
  | nil => rfl
  | cons literal rest ih =>
    unfold assignMembers?
    simp only [ih]
    rfl

/-- Choosing representatives assigns a literal only to refute. -/
theorem made_chooseAll (components : List (List Literal)) (substitution : Substitution) :
    Made deed (chooseAll components substitution) := by
  induction components generalizing substitution with
  | nil => exact .pure
  | cons component rest ih =>
    unfold chooseAll
    dsimp only
    split
    · exact .bind (.deed (may.assignUnit _)) fun _ => .fail (may.fail _)
    · split
      · exact ih _
      · refine .bind .access fun handled => ?_
        split
        · exact ih _
        · exact .bind (.read fun engine => firstFrozen?_unnumbered engine _) fun _ =>
            .bind (.read fun engine => assignMembers?_unnumbered engine _ _ _) fun _ => ih _

/-- Adding the images of clauses. -/
theorem made_addImages (substitution : Substitution) (handles : List Handle) :
    Made deed (addImages substitution handles) := by
  induction handles with
  | nil => exact .pure
  | cons handle rest ih =>
    refine .bind (.lift Engine.made_clause) fun clause => .bind Work.made_spend fun _ => ?_
    split
    · exact ih
    · refine .bind (.read fun _ => rfl) fun twin => ?_
      split
      · refine .bind (.lift Engine.made_clause) fun other => ?_
        split
        · exact .bind (.act (may.makeIrredundant _)) fun _ => ih
        · exact ih
      · exact .bind (.act (may.storeClause _ _ _)) fun _ => ih

omit may in
/-- Looking up the clauses of literals. -/
theorem made_affected (targets : List (Literal × Literal)) : Made deed (affected targets) := by
  induction targets with
  | nil => exact .pure
  | cons target rest ih =>
    exact .bind Engine.made_occurrences fun _ => .bind Engine.made_occurrences fun _ =>
      .bind ih fun _ => .pure

/-- Replacing literals by their representatives. -/
theorem made_substitute {substitution : Substitution} :
    Made deed (substitute substitution) :=
  .bind (.lift (made_affected _)) fun _ =>
    .bind (.lift (.look fun _ => rfl)) fun _ =>
    .bind (made_addImages _ _) fun _ =>
    .bind (.forM fun _ => .lift Engine.made_removeIfLive) fun _ =>
    .forM fun _ => .act (may.retire _ _)

omit may in
/-- Looking for components is work on the budget. -/
theorem made_findComponents [may : MayStop deed] {graph : Implications} :
    Made deed (findComponents graph) := by
  have ends : ∀ (tool : Tool Unit) (engine : Engine), findComponents graph (tool, engine) =
      ((graph.components engine.interrupted tool.budget).mapState fun budget =>
        { tool with budget := budget }).mapState fun after => (after, engine) := by
    intro tool engine
    unfold findComponents
    dsimp only
    cases graph.components engine.interrupted tool.budget <;> rfl
  exact .beside may.fail may.stop ends fun _ => rfl

/-- What substituting equivalent literals is made of. -/
theorem made_run : Made deed run := by
  refine .bind (.lift Engine.made_propagateUnits) fun _ => .bind (.act may.implications) fun graph => ?_
  split
  · exact .pure
  · refine .bind made_findComponents fun found => ?_
    split
    · exact .pure
    · refine .bind (.lift (.look fun _ => rfl)) fun _ =>
        .bind (.lift (made_chooseAll _ _)) fun substitution => ?_
      split
      · exact .pure
      · exact .bind made_substitute fun _ => .lift Engine.made_propagateUnits

/-- Substitution keeps to every relation of techniques. -/
theorem tracks_process [UpheldByTechniques relation] : Tracks relation process :=
  Work.tracks_process made_run.tracks

end Equivalence

/-! ## Elimination -/

namespace Eliminator

variable {touched : List Nat} {pivot : Nat} {sides : GateSides} {redundant : List Handle}

/-- Work of the subsumer is made of the deeds of subsumption. -/
theorem made_onSubsumer {α : Type} {body : Work Subsumer α} (made : Made deed body) :
    Made deed (onSubsumer body) :=
  .within (fun tool => tool.own.subsumer)
    (fun tool part => { tool with own := { tool.own with subsumer := part } })
    (onSubsumer_apply body) made

/-- Work on the heap is work on the tool. -/
theorem made_onHeap [may : MayStop deed] {α : Type} {body : Occurrences → Run VarHeap α} :
    Made deed (onHeap body) := by
  have ends : ∀ (tool : Tool Eliminator) (engine : Engine), onHeap body (tool, engine) =
      ((body engine.index tool.own.heap).mapState fun heap =>
        { tool with own := { tool.own with heap := heap } }).mapState fun after => (after, engine) := by
    intro tool engine
    rw [onHeap_apply]
    cases body engine.index tool.own.heap <;> rfl
  exact .beside may.fail may.stop ends fun _ => rfl

/-- Offering a variable to the heap. -/
theorem made_offer [MayStop deed] {name : Nat} : Made deed (offer name) := by
  refine .bind (.lift Engine.made_isRemovable) fun removable => ?_
  split
  · exact made_onHeap
  · exact .pure

theorem made_clausesWith {literal : Literal} : Made deed (clausesWith literal) :=
  .bind Engine.made_occurrences fun _ => .bind (.look fun _ => rfl) fun _ => .pure

section Removals

variable [may : MayRemove deed]

/-- Removing the blocked clauses among some of one side. -/
theorem made_removeBlocked (literal : Literal) (partners : List Handle) (remaining : Nat)
    (side : Array Handle) (touched : List Nat) :
    Made deed (removeBlocked literal partners remaining side touched) := by
  induction remaining generalizing side touched with
  | zero => exact .pure
  | succ remaining ih =>
    refine .bind .access fun handle => .bind (.lift Engine.made_clause) fun clause =>
      .bind Work.made_spend fun goOn => ?_
    split
    · refine .bind (.lift (.look fun _ => rfl)) fun arena => .bind .access fun blocked => ?_
      split
      · exact .bind (.act (may.removeWithRecord _ _)) fun _ =>
          .bind (.lift Engine.made_count) fun _ => ih _ _
      · exact ih _ _
    · exact .pure

theorem made_removeBlockedSide {literal : Literal} {side : Array Handle} :
    Made deed (removeBlockedSide literal side touched) :=
  .bind (.lift Engine.made_occurrences) fun _ => .bind (.lift (.look fun _ => rfl)) fun _ =>
    made_removeBlocked _ _ _ _ _

end Removals

/-- Forecasting the resolvents of one clause. -/
theorem made_forecastAgainst (bound : UInt64) (gate : Option (Nat × Nat)) (pivot i : Nat)
    (literals : List Literal) (others : List (Handle × Nat)) (forecast : Forecast) :
    Made deed (forecastAgainst bound gate pivot i literals others forecast) := by
  induction others generalizing forecast with
  | nil => exact .pure
  | cons other rest ih =>
    unfold forecastAgainst
    split
    · refine .bind (.lift Engine.made_clause) fun clause => .bind Work.made_spend
        fun goOn => ?_
      split
      · refine .afterLook (fun _ => rfl) fun settings => ?_
        split
        · exact ih _
        · exact .pure
        · dsimp only
          split
          · exact .pure
          · exact ih _
      · exact .pure
    · exact ih _

/-- Forecasting the resolvents of all clauses. -/
theorem made_forecastAll (bound : UInt64) (gate : Option (Nat × Nat)) (pivot : Nat)
    (negative positive : List (Handle × Nat)) (forecast : Forecast) :
    Made deed (forecastAll bound gate pivot negative positive forecast) := by
  induction positive generalizing forecast with
  | nil => exact .pure
  | cons first rest ih =>
    refine .bind (.lift Engine.made_clause) fun clause =>
      .bind (made_forecastAgainst _ _ _ _ _ _ _) fun found => ?_
    split
    · exact .pure
    · exact ih _

theorem made_forecast {positive negative : List Handle} {gate : Option (Nat × Nat)} :
    Made deed (forecast positive negative pivot gate) :=
  .afterLook (fun _ => rfl) fun _ => made_forecastAll _ _ _ _ _ _

theorem made_searchGate {positive negative : Array Handle} :
    Made deed (searchGate pivot positive negative) := .read fun _ => rfl

section Resolves

variable [may : MayResolve deed]

/-- Adding the resolvents of one clause. -/
theorem made_resolveAgainst (gate : Option (Nat × Nat)) (pivot : Nat) (handle : Handle)
    (i : Nat) (others : List (Handle × Nat)) (touched : List Nat) :
    Made deed (resolveAgainst gate pivot handle i others touched) := by
  induction others generalizing touched with
  | nil => exact .pure
  | cons other rest ih =>
    unfold resolveAgainst
    split
    · refine .bind (.lift Engine.made_clause) fun clause =>
        .bind (.lift Engine.made_clause) fun partner => ?_
      split
      · exact ih _
      · refine .bind (.lift Engine.made_count) fun _ =>
          .bind (.act (may.storeClause _ _ _)) fun stored => ?_
        split
        · exact .bind (made_onSubsumer Subsumer.made_enqueue) fun _ => ih _
        · exact ih _
    · exact ih _

/-- Adding the resolvents of all clauses. -/
theorem made_resolveAll (gate : Option (Nat × Nat)) (pivot : Nat)
    (negative positive : List (Handle × Nat)) (touched : List Nat) :
    Made deed (resolveAll gate pivot negative positive touched) := by
  induction positive generalizing touched with
  | nil => exact .pure
  | cons first rest ih => exact .bind (made_resolveAgainst _ _ _ _ _ _) fun _ => ih _

/-- Removing the clauses of one side with records. -/
theorem made_removeSide (literal : Literal) (handles : List Handle) (touched : List Nat) :
    Made deed (removeSide literal handles touched) := by
  induction handles generalizing touched with
  | nil => exact .pure
  | cons handle rest ih =>
    refine .bind Engine.made_clause fun clause => ?_
    split
    · exact ih _
    · exact .bind (.deed (may.removeWithRecord _ _)) fun _ => ih _

/-- Replacing the clauses of a variable. -/
theorem made_replaceByResolvents :
    Made deed (replaceByResolvents pivot sides redundant touched) := by
  refine .bind (made_resolveAll _ _ _ _ _) fun _ => .bind (.lift (made_removeSide _ _ _))
    fun _ => .bind (.lift (made_removeSide _ _ _)) fun _ =>
    .bind (.forM fun _ => .lift Engine.made_removeIfLive) fun _ =>
    .bind (.act (may.eliminated _)) fun _ =>
    .bind (.lift Engine.made_count) fun _ => ?_
  split
  · exact .bind (.lift Engine.made_count) fun _ => .pure
  · exact .pure

/-- Replacing clauses if the forecast allows it. -/
theorem made_decideElimination :
    Made deed (decideElimination pivot sides redundant touched) := by
  refine .bind made_forecast fun found => ?_
  split
  · exact .pure
  · refine .afterLook (fun _ => rfl) fun settings => .bind Work.made_own fun own => ?_
    dsimp only
    split
    · exact .pure
    · exact .bind Work.made_modifyOwn fun _ => made_replaceByResolvents

/-- Deciding about what is left after blocked clauses are gone. -/
theorem made_afterBlocked : Made deed (afterBlocked pivot sides redundant) := by
  refine .bind made_removeBlockedSide fun (enough, positive, touched) => ?_
  dsimp only
  split
  · refine .bind made_removeBlockedSide fun (enough, negative, touched) => ?_
    dsimp only
    split
    · split
      · exact .bind (.lift made_searchGate) fun _ => made_decideElimination
      · exact made_decideElimination
    · exact .pure
  · exact .pure

/-- What one trial of a variable is made of. -/
theorem made_eliminate : Made deed (eliminate pivot) := by
  have decide_ : ∀ (sides : GateSides) (positive negative : Nat) (settings : Settings)
      (redundant : List Handle), Made deed
        (if sides.gate.isNone && settings.skips positive negative then return []
        else if settings.blockedDuringElimination then afterBlocked pivot sides redundant
        else decideElimination pivot sides redundant []) := by
    intro sides positive negative settings redundant
    split
    · exact .pure
    · split
      · exact made_afterBlocked
      · exact made_decideElimination
  refine .bind (.lift made_clausesWith) fun (positive, positiveRedundant) =>
    .bind (.lift made_clausesWith) fun (negative, negativeRedundant) =>
    .afterLook (fun _ => rfl) fun settings => ?_
  dsimp only
  split
  · refine .bind Work.made_spend fun enough => ?_
    split
    · exact .bind (.lift made_searchGate) fun _ => decide_ _ _ _ _ _
    · exact .pure
  · exact decide_ _ _ _ _ _

end Resolves

/-- What one turn of elimination is made of. -/
theorem made_step [may : MaySubstitute deed] : Made deed step := by
  refine .bind made_onHeap fun selected => ?_
  split
  · exact .pure
  · refine .bind Work.made_spend fun goOn => ?_
    split
    · refine .bind (.lift Engine.made_isRemovable) fun removable => ?_
      split
      · refine .bind made_eliminate fun touched => ?_
        split
        · exact .pure
        · exact .bind (.lift Engine.made_propagateUnits) fun _ =>
            .bind (made_onSubsumer Subsumer.made_drain) fun _ =>
            .bind (.forM fun _ => made_offer) fun _ => .pure
      · exact .pure
    · exact .pure

section Tracked

variable [upheld : UpheldByTechniques relation]

theorem tracks_loop (reached : Nat × Nat × Nat) : Tracks relation (loop reached) :=
  fun state => loop_ends (fun _ => made_step.tracks.onward) reached (upheld.refl state.2)

theorem tracks_run : Tracks relation run :=
  .bind (.lift Engine.tracks_propagateUnits) fun _ => .after (.lift Engine.leaves_look) fun _ =>
    .bind made_onHeap.tracks fun _ => .after Work.leaves_modifyOwn fun _ =>
    .bind (.forM fun _ => made_offer.tracks) fun _ =>
    .bind (fun state => tracks_loop (progress state) state) fun _ => made_onHeap.tracks

/-- Elimination keeps to every relation of techniques. -/
theorem tracks_process : Tracks relation process :=
  Work.tracks_process (.after (.lift Engine.leaves_look) fun _ =>
    .bind (made_onSubsumer Subsumer.made_start).tracks fun _ => tracks_run)

end Tracked

end Eliminator

/-! ## Blocked clauses -/

namespace BlockedQueue

theorem made_enqueue {literal : Literal} : Made deed (enqueue literal) := Work.made_modifyOwn

theorem made_requeue (literals : List Literal) : Made deed (requeue literals) := by
  induction literals with
  | nil => exact .pure
  | cons literal rest ih =>
    refine .bind (.lift Engine.made_isRemovable) fun removable => ?_
    split
    · exact .bind made_enqueue fun _ => ih
    · exact ih

section Removals

variable [may : MayRemove deed]

/-- Removing the blocked clauses of a list. -/
theorem made_removeBlocked (literal : Literal) (partners handles : List Handle) :
    Made deed (removeBlocked literal partners handles) := by
  induction handles with
  | nil => exact .pure
  | cons handle rest ih =>
    refine .bind (.lift (.look fun _ => rfl)) fun arena => ?_
    split
    · exact ih
    next clause =>
      split
      · exact ih
      · refine .bind Work.made_spend fun goOn => ?_
        split
        · refine .bind .access fun blocked => ?_
          split
          · exact .bind (.act (may.removeWithRecord _ _)) fun _ =>
              .bind (.lift Engine.made_count) fun _ => .bind (made_requeue _) fun _ => ih
          · exact ih
        · exact .pure

/-- Removing the clauses that a literal blocks. -/
theorem made_tryLiteral {literal : Literal} : Made deed (tryLiteral literal) := by
  refine .bind (.lift Engine.made_isRemovable) fun removable => ?_
  split
  · exact .pure
  · refine .bind (.read fun _ => rfl) fun count => ?_
    split
    · exact .pure
    · exact .bind (.lift Engine.made_occurrences) fun _ =>
        .bind (.lift (.look fun _ => rfl)) fun _ =>
        .bind (.lift Engine.made_occurrences) fun _ => made_removeBlocked _ _ _

/-- Trying the literals of the queue. -/
theorem made_loop [may : MayStop deed] (fuel : Nat) : Made deed (loop fuel) := by
  induction fuel with
  | zero => exact .stop (may.stop _)
  | succ fuel ih =>
    refine .bind Work.made_own fun queue => ?_
    split
    · exact .pure
    · refine .bind Work.made_modifyOwn fun _ => .bind made_tryLiteral fun goOn => ?_
      split
      · exact ih
      · exact .pure

end Removals

/-- Which literals are queued has nothing to do with the numbering. -/
theorem removableLiterals?_unnumbered (engine : Engine) (names : List Nat) :
    removableLiterals? (unnumbered engine) names = removableLiterals? engine names := by
  induction names with
  | nil => rfl
  | cons name rest ih =>
    unfold removableLiterals?
    simp only [ih]
    rfl

/-- What removing blocked clauses is made of. -/
theorem made_run [may : MayPropagate deed] : Made deed run := by
  refine .bind (.lift Engine.made_propagateUnits) fun _ => .afterEngine (fun engine => ?_) fun _ =>
    .bind .access fun _ => .bind Work.made_modifyOwn fun _ => made_loop _
  rw [removableLiterals?_unnumbered]
  rfl

/-- Removing blocked clauses keeps to every relation of techniques. -/
theorem tracks_process [Upheld relation] : Tracks relation process :=
  Work.tracks_process (Work.tracks_tidied made_run.tracks Work.made_modifyOwn.tracks)

end BlockedQueue

/-! ## Numbering -/

namespace Numbering

variable [Composable relation]

theorem tracks_build : Tracks relation build :=
  .after (.lift Engine.leaves_get) fun _ =>
    .bind (.forM fun _ => .after Work.leaves_spend fun _ => .pure) fun _ =>
    .after .access fun _ => .of_leaves Work.leaves_modifyOwn

/-- Numbering changes nothing but the tool. -/
theorem tracks_process : Tracks relation process :=
  .after Work.leaves_beginRun fun _ => .after Work.leaves_startBudget fun _ =>
    .bind tracks_build fun _ => .after (.lift Engine.leaves_look) fun _ =>
    .after Work.leaves_own fun _ => .bind (.lift Engine.tracks_tell) fun _ =>
    .lift Engine.tracks_conclude

end Numbering

/-! ## Probing -/

namespace Probing

variable [may : MayPropagate deed] {literal positive : Literal}

/-- The complement of a failed literal is assigned and applied. -/
theorem made_refute : Made deed (do
    Engine.count fun tally => { tally with failedLiterals := tally.failedLiterals + 1 }
    Engine.assignUnit literal
    Engine.propagateUnits
    return none : Work Unit (Option (List Literal))) :=
  .bind (.lift Engine.made_count) fun _ => .bind (.act (may.assignUnit _)) fun _ =>
    .bind (.lift Engine.made_propagateUnits) fun _ => .pure

/-- Assigning what both literals of a variable lead to. -/
theorem made_assignNecessary (literals : List Literal) :
    Made deed (assignNecessary positive literals) := by
  induction literals with
  | nil => exact .pure
  | cons literal rest ih =>
    refine .bind Engine.made_literalValue fun value => ?_
    split
    · exact .bind (.deed (may.prove _)) fun _ => .bind (.deed (may.prove _)) fun _ =>
        .bind (.deed (may.assignUnit _)) fun _ => .bind (.deed (may.prove _)) fun _ =>
        .bind (.deed (may.prove _)) fun _ => .bind Engine.made_count fun _ => ih
    · exact ih

/-- What both literals of a variable lead to is assigned and applied. -/
theorem made_necessary {both : List Literal} : Made deed (do
    assignNecessary positive both
    Engine.propagateUnits : Work Unit Unit) :=
  .bind (.lift (made_assignNecessary _)) fun _ => .lift Engine.made_propagateUnits

end Probing

/-- Work of the subsumer leaves the rest of the tool. -/
theorem BatchEliminator.onSubsumer_apply {α : Type} (body : Work Subsumer α)
    (state : Tool BatchEliminator × Engine) :
    onSubsumer body state = (body (state.1.own, state.2)).mapState fun part =>
      ({ state.1 with own := part.1 }, part.2) := by
  unfold onSubsumer
  dsimp only
  cases body (state.1.own, state.2) <;> rfl

/-- Work with the subsumption of batch elimination. -/
theorem BatchEliminator.made_onSubsumer {α : Type} {body : Work Subsumer α}
    (made : Made deed body) : Made deed (onSubsumer body) :=
  .within (fun tool => tool.own) (fun tool part => { tool with own := part })
    (onSubsumer_apply body) made

/-- What follows a pass. -/
theorem BatchEliminator.made_tidy [may : MayPropagate deed] [MayMark deed] (batch : Batch) :
    Made deed (tidy batch) :=
  .bind (.forM fun _ => made_onSubsumer Subsumer.made_enqueue) fun _ =>
    .bind (made_onSubsumer Subsumer.made_drain) fun _ => .lift Engine.made_propagateUnits

end CnfSimplifier
