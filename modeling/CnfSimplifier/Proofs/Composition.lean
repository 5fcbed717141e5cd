import CnfSimplifier.Proofs.Tracking
import CnfSimplifier.Proofs.Unnumbered

/-!
# What computations are made of

A technique changes the engine by a few operations only, its deeds. Between them it looks at
the engine, works on its own tool, and decides what to do next. So much of what holds of a
technique holds of it because it holds of each of its deeds, whatever the loops around them
do: that it keeps to a relation, that it takes no notice of the numbering, that it does not
run out of fuel.

`Made` says what a computation is made of. Each technique is gone through once, and what is
wanted of it is read off by an induction on how it is made.
-/
namespace CnfSimplifier

/-- A computation is made of deeds. What it looks at in between, and what it does to its tool
on account of the engine, must not depend on the numbering. It fails or stops by itself only
if that is a deed. -/
inductive Made (deed : ∀ α : Type, Run Engine α → Prop) :
    ∀ {σ α : Type} [HasEngine σ] [HasNumbering σ], Run σ α → Prop
  | deed {α : Type} {body : Run Engine α} (isDeed : deed α body) : Made deed body
  | pure {σ α : Type} [HasEngine σ] [HasNumbering σ] {value : α} :
    Made deed (pure value : Run σ α)
  | fail {σ α : Type} [HasEngine σ] [HasNumbering σ] {cause : Error}
    (isDeed : deed Unit (Run.fail cause)) : Made deed (Run.fail cause : Run σ α)
  | stop {σ α : Type} [HasEngine σ] [HasNumbering σ] {why : Breakdown}
    (isDeed : deed Unit (Run.stop why)) : Made deed (Run.stop why : Run σ α)
  | read {σ α : Type} [HasEngine σ] [HasNumbering σ] {look : σ → Option α}
    (same : ∀ state, look (unnumbered state) = look state) : Made deed (Run.read look)
  /-- Work on the tool that is always done. -/
  | own {τ α : Type} {body : Run (τ × Engine) α} {value : τ → Engine → α}
    {change : τ → Engine → τ}
    (done : ∀ tool engine, body (tool, engine) = .done (value tool engine) (change tool engine, engine))
    (same : ∀ tool engine, value tool engine.unnumbered = value tool engine ∧
      change tool engine.unnumbered = change tool engine) : Made deed body
  /-- Work on the tool, however it ends. -/
  | beside {τ α : Type} {body : Run (τ × Engine) α} {inner : Engine → Run τ α}
    (fails : ∀ cause, deed Unit (Run.fail cause)) (stops : ∀ why, deed Unit (Run.stop why))
    (ends : ∀ tool engine, body (tool, engine) =
      (inner engine tool).mapState fun after => (after, engine))
    (same : ∀ engine, inner engine.unnumbered = inner engine) : Made deed body
  | bind {σ α β : Type} [HasEngine σ] [HasNumbering σ] {body : Run σ α} {next : α → Run σ β}
    (first : Made deed body) (rest : ∀ value, Made deed (next value)) : Made deed (body >>= next)
  /-- What was seen may depend on the numbering if what comes after does not. -/
  | afterLook {τ α β : Type} {question : Engine → α} {next : α → Run (τ × Engine) β}
    (same : ∀ engine, next (question (unnumbered engine)) = next (question engine))
    (rest : ∀ value, Made deed (next value)) :
    Made deed ((liftM (Engine.look question) : Run (τ × Engine) α) >>= next)
  | attempt {σ α : Type} [HasEngine σ] [HasNumbering σ] {body : Run σ α} (made : Made deed body) :
    Made deed body.attempt
  | lift {τ α : Type} {body : Run Engine α} (made : Made deed body) :
    Made deed (liftM body : Run (τ × Engine) α)
  /-- Work on another tool and the same engine. -/
  | within {τ ρ α : Type} {outer : Run (τ × Engine) α} {inner : Run (ρ × Engine) α}
    (part : τ → ρ) (put : τ → ρ → τ)
    (ends : ∀ state, outer state = (inner (part state.1, state.2)).mapState fun after =>
      (put state.1 after.1, after.2))
    (made : Made deed inner) : Made deed outer

namespace Made

variable {deed : ∀ α : Type, Run Engine α → Prop} {σ τ α β : Type} [HasEngine σ] [HasNumbering σ]
  {body : Run σ α}

/-- What is there or not does not depend on the numbering. -/
theorem access {found : Option α} : Made deed (Run.access found : Run σ α) :=
  @read deed _ _ _ _ (fun _ => found) fun _ => rfl

/-- Nor does a look that is blind to it. -/
theorem look {question : Engine → α}
    (same : ∀ engine, question (unnumbered engine) = question engine) :
    Made deed (Engine.look question) :=
  @read deed _ _ _ _ (fun engine => some (question engine)) fun engine => congrArg some (same engine)

/-- A loop is made of its turns. -/
theorem forM {ι : Type} {items : List ι} {turn : ι → Run σ PUnit}
    (made : ∀ item, Made deed (turn item)) : Made deed (items.forM turn) :=
  Run.forM_of_turns (motive := Made deed) .pure (fun first rest => first.bind fun _ => rest)
    fun item _ => made item

/-- Either branch may be taken. -/
theorem ite {condition : Prop} [Decidable condition] {other : Run σ α} (yes : Made deed body)
    (no : Made deed other) : Made deed (if condition then body else other) := by
  split
  · exact yes
  · exact no

/-- A deed among the steps of a technique. -/
theorem act {body : Run Engine α} (isDeed : deed α body) :
    Made deed (liftM body : Run (τ × Engine) α) := .lift (.deed isDeed)

/-- What was seen of the engine may depend on the numbering if what comes after does not. -/
theorem afterEngine {next : Engine → Run (τ × Engine) β}
    (same : ∀ engine, next (unnumbered engine) = next engine)
    (rest : ∀ engine, Made deed (next engine)) :
    Made deed ((liftM (get : Run Engine Engine) : Run (τ × Engine) Engine) >>= next) :=
  @afterLook deed _ _ _ id next same rest

/-! ## What is read off -/

/-- What is made of deeds that keep to a relation keeps to it. -/
theorem tracks {relation : Engine → Engine → Prop} [composable : Composable relation]
    (made : Made (fun _ => Tracks relation) body) : Tracks relation body := by
  induction made with
  | deed isDeed => exact isDeed
  | pure => exact .pure
  | fail => exact .fail
  | stop => exact .stop
  | read => exact .of_leaves .read
  | own done _ => exact fun state => .of_done (done state.1 state.2) (composable.refl state.2)
  | beside _ _ ends _ =>
    exact fun state => .within (ends state.1 state.2) (Run.Ends.trivial.imp
      (fun _ _ _ => composable.refl state.2) fun _ _ _ => composable.refl state.2)
  | bind _ _ first rest => exact .bind first rest
  | afterLook _ _ rest => exact .after (.lift Engine.leaves_look) rest
  | attempt _ made => exact made.attempt
  | lift _ made => exact made.lift
  | within part put ends _ made =>
    exact .within (fun state => (part state.1, state.2))
      (fun state after => (put state.1 after.1, after.2)) made ends (fun _ => rfl) fun _ _ => rfl

/-- What is made of looks at the engine leaves it. -/
theorem leaves (made : Made (fun _ => Leaves) body) : Leaves body := by
  induction made with
  | deed isDeed => exact isDeed
  | pure => exact .pure
  | fail isDeed =>
    exact fun state _ => (isDeed (engineOf state) fun _ _ => False).elim
  | stop => exact fun _ _ => .stop
  | read => exact .read
  | own done _ => exact fun state _ => .of_done (done state.1 state.2) rfl
  | beside fails =>
    exact fun state _ => (fails .inconsistent state.2 fun _ _ => False).elim
  | bind _ _ first rest => exact .bind first rest
  | afterLook _ _ rest => exact .bind (.lift Engine.leaves_look) rest
  | attempt _ made => exact fun state failed => .attempt ((made state fun _ _ => False).imp
      (fun _ _ same => same) fun _ _ => False.elim)
  | lift _ made => exact made.lift
  | within part put ends _ made =>
    exact fun state failed => .within (ends state) ((made (part state.1, state.2) fun _ _ => False).imp
      (fun _ _ same => same) fun _ _ => False.elim)

/-- What is made of deeds that take no notice of the numbering takes none. -/
theorem ignores (made : Made (fun _ => IgnoresNumbering) body) : IgnoresNumbering body := by
  induction made with
  | deed isDeed => exact isDeed
  | pure => exact .pure
  | fail => exact .fail
  | stop => exact .stop
  | read same => exact .read same
  | own done same =>
    rintro ⟨tool, engine⟩
    obtain ⟨value, change⟩ := same tool engine
    change (_ : Run _ _) (tool, engine.unnumbered) |>.Alike _
    rw [done, done, value, change]
    exact .done rfl
  | @beside _ _ body inner _ _ ends same =>
    rintro ⟨tool, engine⟩
    change (body (tool, engine.unnumbered)).Alike (body (tool, engine))
    rw [ends, ends, same]
    cases inner engine tool with
    | done value after => exact .done rfl
    | failed cause after => exact .failed rfl
    | stuck why => exact .stuck
  | bind _ _ first rest => exact .bind first rest
  | afterLook same _ rest => exact .afterLook same rest
  | attempt _ made => exact made.attempt
  | lift _ made => exact made.lift
  | within part put ends _ made =>
    refine @IgnoresNumbering.within _ _ _ _ _ _ _ (fun state => (part state.1, state.2))
      (fun state after => (put state.1 after.1, after.2)) ends (fun _ => rfl) ?_ made
    intro state first second same
    obtain ⟨tool, engine⟩ := Prod.mk.inj same
    exact Prod.ext (congrArg (put state.1) tool) engine

end Made

/-! ## Deeds -/

section Deeds

variable (deed : ∀ α : Type, Run Engine α → Prop)

/-- It is a deed to fail, and to stop because fuel is used up. -/
class MayStop : Prop where
  fail : ∀ cause, deed Unit (Run.fail cause)
  stop : ∀ why, deed Unit (Run.stop why)

/-- It is a deed to take a clause away. -/
class MayRemove : Prop where
  prove : ∀ step, deed Unit (Engine.prove step)
  count : ∀ change, deed Unit (Engine.count change)
  removeClause : ∀ handle, deed Unit (Engine.removeClause handle)
  removeWithRecord : ∀ handle literal, deed Unit (Engine.removeWithRecord handle literal)

/-- It is a deed to mark a clause, as long as it stays dead or alive, and redundant or not. -/
class MayMark : Prop where
  markClause : ∀ {handle : Handle} {change : ClauseFlags → ClauseFlags},
    (∀ flags, (change flags).dead = flags.dead) →
    (∀ flags, (change flags).redundant = flags.redundant) →
    deed Unit (Engine.markClause handle change)

/-- It is a deed to replace the clauses of a variable by others. -/
class MayResolve : Prop extends MayRemove deed, MayMark deed where
  storeClause : ∀ literals redundant derived,
    deed (Option Handle) (Engine.storeClause literals redundant derived)
  eliminated : ∀ name, deed Unit (Engine.handle (.eliminated name))

/-- It is a deed to assign and apply root literals, and to shorten clauses on account of others. -/
class MayPropagate : Prop extends MayStop deed, MayRemove deed where
  apply : deed Unit (modify fun engine => { engine with applied := engine.applied + 1 })
  implications : deed Implications Engine.implications
  strengthen : ∀ handle literal, deed Unit (Engine.strengthen handle literal)
  makeIrredundant : ∀ handle, deed Unit (Engine.makeIrredundant handle)
  assignUnit : ∀ literal, deed Unit (Engine.assignUnit literal)

/-- It is a deed to suggest a phase, and to replace a literal by another. -/
class MaySubstitute : Prop extends MayResolve deed, MayPropagate deed where
  setPhase : ∀ name phase, deed Unit (Engine.updateTrail fun trail => trail.setPhase name phase)
  retire : ∀ literal representative, deed Unit (Equivalence.retire literal representative)

end Deeds

variable {deed : ∀ α : Type, Run Engine α → Prop} {handle : Handle} {literal : Literal}

namespace Engine

theorem made_clause : Made deed (clause handle) := .read fun _ => rfl

theorem made_occurrences : Made deed (occurrences literal) := .read fun _ => rfl

theorem made_literalValue : Made deed (literalValue literal) := .read fun _ => rfl

theorem made_isRemovable {name : Nat} : Made deed (isRemovable name) := .read fun _ => rfl

theorem made_count [may : MayRemove deed] {change : Tally → Tally} : Made deed (count change) :=
  .deed (may.count change)

/-- Removing a clause that may be gone already. -/
theorem made_removeIfLive [may : MayRemove deed] : Made deed (removeIfLive handle) :=
  .bind made_clause fun _ => .ite .pure (.deed (may.removeClause handle))

section Propagation

variable [may : MayPropagate deed]

/-- Satisfied clauses are removed. -/
theorem made_removeSatisfied (handles : List Handle) :
    Made deed (removeSatisfied literal handles) := by
  induction handles with
  | nil => exact .pure
  | cons handle rest ih =>
    refine .bind (.look fun _ => rfl) fun held => ?_
    split
    · exact .bind (.deed (may.removeClause handle)) fun _ => ih
    · exact ih

/-- False literals are removed. -/
theorem made_removeFalsified (handles : List Handle) :
    Made deed (removeFalsified literal handles) := by
  induction handles with
  | nil => exact .pure
  | cons handle rest ih =>
    refine .bind (.look fun _ => rfl) fun held => ?_
    split
    · exact .bind (.deed (may.strengthen handle literal)) fun _ => ih
    · exact ih

/-- Applying units is made of removals and assignments. -/
theorem made_applyUnits (fuel : Nat) : Made deed (applyUnits fuel) := by
  induction fuel with
  | zero => exact .stop (may.stop _)
  | succ fuel ih =>
    refine .bind (.look fun _ => rfl) fun next => ?_
    split
    · exact .pure
    · exact .bind (.deed may.apply) fun _ => .bind made_occurrences fun _ =>
        .bind (made_removeSatisfied _) fun _ => .bind made_occurrences fun _ =>
        .bind (made_removeFalsified _) fun _ => ih

/-- Applying the root literals removes and shortens clauses. -/
theorem made_propagateUnits : Made deed propagateUnits :=
  .bind (.look fun _ => rfl) fun _ => made_applyUnits _

end Propagation

end Engine

namespace Work

variable {τ : Type}

theorem made_own : Made deed (own : Work τ τ) := .own (fun _ _ => rfl) fun _ _ => ⟨rfl, rfl⟩

theorem made_modifyOwn {change : τ → τ} : Made deed (modifyOwn change) :=
  .own (fun _ _ => rfl) fun _ _ => ⟨rfl, rfl⟩

theorem made_budget : Made deed (budget : Work τ Budget) :=
  .own (fun _ _ => rfl) fun _ _ => ⟨rfl, rfl⟩

/-- Spending steps is work on the tool. -/
theorem made_spend {steps : Nat} : Made deed (spend steps : Work τ Bool) :=
  .own (fun _ _ => rfl) fun _ _ => ⟨rfl, rfl⟩

theorem made_startBudget {limit : UInt64} : Made deed (startBudget limit : Work τ Unit) :=
  .own (fun _ _ => rfl) fun _ _ => ⟨rfl, rfl⟩

end Work

end CnfSimplifier
