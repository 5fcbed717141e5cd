import CnfSimplifier.Proofs.EliminationProgress
import CnfSimplifier.Proofs.SubsumptionFixpoint
import CnfSimplifier.Proofs.TableAccess
import Mathlib.Order.WellFounded

/-!
# Elimination comes to its end

The steps of elimination and of its subsumer are limited, but that is not why a run ends. A
clause comes back into the queue of the subsumer only after it lost a literal, whatever the
budget says. A variable that is sifted through the heap moves to a place with half or twice
the number. And every turn of elimination makes progress, so there is no endless sequence
of turns, even if both budgets are filled up between them.
-/
namespace CnfSimplifier

/-! ## Fuel -/

namespace Run

variable {σ τ α β : Type} {state : σ}

/-- A run does not use up the fuel of a loop. -/
abbrev KeepsFuel (body : Run σ α) (state : σ) : Prop := body.Safe (· ≠ .outOfFuel) state

/-- A computation that keeps its fuel wherever it begins. -/
def Fuelless (body : Run σ α) : Prop := ∀ state, body.KeepsFuel state

namespace Fuelless

variable {body : Run σ α}

theorem pure {value : α} : Fuelless (pure value : Run σ α) := fun _ => .pure

theorem fail {cause : Error} : Fuelless (Run.fail cause : Run σ α) := fun _ => .fail

theorem stop {why : Breakdown} (other : why ≠ .outOfFuel) : Fuelless (Run.stop why : Run σ α) :=
  fun _ => .stop other

theorem read {look : σ → Option α} : Fuelless (Run.read look) := by
  intro state
  cases found : look state with
  | some value => exact .read found
  | none =>
    intro why stuck
    simp only [Run.read, found] at stuck
    cases stuck
    decide

theorem access {found : Option α} : Fuelless (Run.access found : Run σ α) := by
  cases found with
  | some value => exact fun _ => .of_done rfl
  | none => exact stop nofun

theorem update {change : σ → Option σ} : Fuelless (Run.update change) := by
  intro state
  cases changed : change state with
  | some after => exact .update changed
  | none =>
    intro why stuck
    simp only [Run.update, changed] at stuck
    cases stuck
    decide

theorem modify {change : σ → σ} : Fuelless (modify change : Run σ Unit) := fun _ => .of_done rfl

theorem get : Fuelless (get : Run σ σ) := fun _ => .of_done rfl

theorem bind {next : α → Run σ β} (first : Fuelless body) (rest : ∀ value, Fuelless (next value)) :
    Fuelless (body >>= next) :=
  fun state => (first state).bind .trivial fun value after _ => rest value after

theorem ite {condition : Prop} [Decidable condition] {other : Run σ α} (yes : Fuelless body)
    (no : Fuelless other) : Fuelless (if condition then body else other) := by
  split
  · exact yes
  · exact no

theorem forM {ι : Type} {items : List ι} {turn : ι → Run σ PUnit}
    (turns : ∀ item, Fuelless (turn item)) : Fuelless (items.forM turn) :=
  forM_of_turns (motive := Fuelless) .pure (fun first rest => first.bind fun _ => rest)
    fun item _ => turns item

theorem lift {body : Run Engine α} (fuelless : Fuelless body) :
    Fuelless (liftM body : Run (τ × Engine) α) := fun state => (fuelless state.2).lift

end Fuelless

/-- A run does not use up the fuel of a loop, and it is said what it comes to if it is done. -/
abbrev Reaches (body : Run σ α) (state : σ) (done : α → σ → Prop) : Prop :=
  body.Meets (· ≠ .outOfFuel) state done fun _ _ => True

end Run

/-! ## The heap -/

namespace VarHeap

variable {index : Occurrences} {heap : VarHeap} {name spot : Nat}

/-- On its way up a variable halves its place. -/
theorem siftUp_keepsFuel (fuel : Nat) {gap : Nat} (enough : gap < fuel) :
    (siftUp index name fuel gap).KeepsFuel heap := by
  induction fuel generalizing heap gap with
  | zero => exact absurd enough (Nat.not_lt_zero _)
  | succ fuel ih =>
    unfold siftUp
    dsimp only
    split
    next => exact Run.Fuelless.update heap
    next inside =>
      refine (Run.Fuelless.read heap).bind .trivial fun above middle _ => ?_
      refine (Run.Fuelless.access middle).bind .trivial fun below last _ => ?_
      split
      · exact (Run.Fuelless.update last).bind .trivial fun _ after _ => ih (by omega)
      · exact Run.Fuelless.update last

/-- On its way down a variable doubles its place, and it stays within the heap. -/
theorem siftDown_keepsFuel (fuel : Nat) {gap : Nat} (onPlace : 0 < gap)
    (enough : 0 < fuel ∧ heap.size < fuel + gap) :
    (siftDown index name fuel gap).KeepsFuel heap := by
  induction fuel generalizing heap gap with
  | zero => exact absurd enough.1 (Nat.lt_irrefl 0)
  | succ fuel ih =>
    unfold siftDown
    refine .step rfl ?_
    dsimp only
    split
    case isFalse => exact Run.Fuelless.update heap
    have descend : ∀ child below : Nat, 2 * gap ≤ child → child ≤ heap.size → (do
        if ← Run.access (before? index below name) then
          Run.update fun heap => heap.put gap below
          siftDown index name fuel child
        else Run.update fun heap => heap.put gap name : Run VarHeap Unit).KeepsFuel heap := by
      intro child below twice inside
      refine .look (Run.Fuelless.access heap) .access fun isBefore _ => ?_
      split
      · have puts : (Run.update fun heap => heap.put gap below).Ends heap
            (fun _ after => after.size = heap.size) fun _ _ => False :=
          .update fun _ done => size_put done
        exact (Run.Fuelless.update heap).bind puts fun _ after same =>
          ih (by omega) ⟨by omega, by omega⟩
      · exact Run.Fuelless.update heap
    refine .look (Run.Fuelless.access heap) .access fun onLeft _ => ?_
    split
    · refine .look (Run.Fuelless.access heap) .access fun onRight _ => ?_
      refine .look (Run.Fuelless.access heap) .access fun rightFirst _ => ?_
      split
      · exact .step rfl (descend _ _ (by omega) (by omega))
      · exact .step rfl (descend _ _ (by omega) (by omega))
    · exact .step rfl (descend _ _ (by omega) (by omega))

theorem percolateUp_keepsFuel : (percolateUp index spot).KeepsFuel heap := by
  unfold percolateUp
  exact (Run.Fuelless.read heap).bind .trivial fun _ _ _ => siftUp_keepsFuel _ (Nat.lt_succ_self _)

theorem percolateDown_keepsFuel (onPlace : 0 < spot) :
    (percolateDown index spot).KeepsFuel heap := by
  unfold percolateDown
  refine .step rfl (.look (Run.Fuelless.access heap) .access fun name _ => ?_)
  exact siftDown_keepsFuel _ onPlace ⟨Nat.succ_pos _, by omega⟩

/-- Inserting a variable sifts it up, and that ends. -/
theorem insert_keepsFuel (positive : heap.Positive) (present : 0 < name) :
    (insert index name).KeepsFuel heap := by
  unfold insert
  refine .look (Run.Fuelless.read heap) .read fun isInside _ => ?_
  split
  · refine .look (Run.Fuelless.read heap) .read fun spot atName => ?_
    refine percolateUp_keepsFuel.bind
      (percolateUp_ends positive (positive.place name spot present atName)) fun _ middle positive => ?_
    refine .look (Run.Fuelless.read middle) .read fun spot atName => ?_
    exact percolateDown_keepsFuel (positive.place name spot present atName)
  · refine .look (Run.Fuelless.read heap) .read fun old _ => .step rfl ?_
    refine (Run.Fuelless.update heap).bind .trivial fun _ middle _ => .step rfl ?_
    exact percolateUp_keepsFuel

/-- Selecting a variable sifts another one down, and that ends. -/
theorem select_keepsFuel : (select index).KeepsFuel heap := by
  unfold select
  refine .look (Run.Fuelless.read heap) .read fun last _ => ?_
  split
  · exact .pure
  · refine .look (Run.Fuelless.read heap) .read fun first _ => ?_
    refine (Run.Fuelless.update heap).bind .trivial fun _ middle _ => .step rfl ?_
    split
    · exact (percolateDown_keepsFuel Nat.one_pos).bind .trivial fun _ _ _ => .pure
    · exact .step rfl .pure

end VarHeap

namespace Subsumer

variable [Realm] {known : Option Implications} {handle : Handle} {clause : Clause}
  {before middle after state : Tool Subsumer × Engine}

/-! ## The queue of the subsumer -/

omit [Realm] in
/-- Every budget counts under a limit that leaves no room in a word. -/
theorem counts_greatest (budget : Budget) (slack : Nat) :
    budget.Counts 0xFFFFFFFFFFFFFFFF slack := .of_large (by decide)

/-- Work on the queue. The clauses that wait and the literals that are left are no more than
before. -/
structure Recedes (before after : Tool Subsumer × Engine) : Prop where
  sound : after.2.Sound
  leads : before.2.Leads .equivalence after.2
  graph : after.1.own.graph = before.1.own.graph
  fits : after.1.own.queue.length + after.2.arena.weight ≤
    before.1.own.queue.length + before.2.arena.weight

theorem Recedes.trans (first : Recedes before middle) (second : Recedes middle after) :
    Recedes before after :=
  ⟨second.sound, first.leads.trans second.leads, second.graph.trans first.graph,
    second.fits.trans first.fits⟩

theorem Proceeds.recedes (proceeds : Proceeds before after) : Recedes before after :=
  ⟨proceeds.sound, proceeds.leads, proceeds.graph, proceeds.fits⟩

/-- Other marks change nothing that counts. -/
theorem Recedes.of_marks {engine : Engine} (sound : engine.Sound)
    (leads : before.2.Leads .equivalence engine) (remarks : before.2.Remarks engine) :
    Recedes before (before.1, engine) := by
  refine ⟨sound, leads, rfl, ?_⟩
  rw [Arena.weight_eq_sum, Arena.weight_eq_sum, remarks.clauses.contents]

/-- Unit propagation leaves less for the subsumer to do. -/
theorem propagate_recedes (strict : ¬ Realm.Lenient) (sound : state.2.Sound)
    (orderly : state.2.trail.Orderly) :
    (liftM Engine.propagateUnits : Work Subsumer Unit).Finishes state
      (fun _ after => Recedes state after) fun cause _ => cause.isUnsat = true := by
  have propagates : (liftM Engine.propagateUnits : Work Subsumer Unit).Finishes state _ _ :=
    .lift (Engine.propagateUnits_finishes sound strict orderly)
  refine propagates.imp ?_ fun _ _ => id
  rintro _ ⟨_, after⟩ ⟨rfl, refines⟩
  have proceeds : Proceeds state (state.1, after) := .of_refines rfl refines
  exact proceeds.recedes

/-- One clause is worked on, whatever the budget is. -/
theorem simplifyClause_recedes (strict : ¬ Realm.Lenient) (sound : state.2.Sound)
    (orderly : state.2.trail.Orderly) (knows : Knows known state)
    (live : state.2.arena.live? handle = some clause) :
    (simplifyClause handle).Finishes state (fun _ after => Recedes state after)
      fun cause _ => cause.isUnsat = true := by
  have finish : ∀ middle : Tool Subsumer × Engine, Recedes state middle →
      (liftM Engine.propagateUnits : Work Subsumer Unit).Finishes middle
        (fun _ after => Recedes state after) fun cause _ => cause.isUnsat = true :=
    fun middle recedes => (propagate_recedes strict recedes.sound
      (recedes.leads.orderly orderly)).imp (fun _ _ => recedes.trans) fun _ _ => id
  unfold simplifyClause
  refine (hidden_finishes strict sound knows live (counts_greatest _ _)).bind ?_
  rintro removed first ⟨searches, _⟩
  have proceeds : Proceeds state first := .of_refines searches.own searches.refines
  split
  next => exact finish first proceeds.recedes
  next =>
  obtain ⟨_, found, _⟩ := proceeds.wears.new (Arena.live?_eq_some.1 live).1
  refine (forward_finishes strict proceeds.sound found (counts_greatest _ 0) (by omega)).bind ?_
  intro _ second searches
  have proceeds : Proceeds state second :=
    proceeds.trans (.of_refines searches.own searches.refines)
  obtain ⟨left, foundLeft, _⟩ := proceeds.wears.new (Arena.live?_eq_some.1 live).1
  refine .step (Run.lift_of_done (Engine.clause_of_get? foundLeft)) ?_
  split
  next => exact finish second proceeds.recedes
  next alive =>
  have liveLeft : second.2.arena.live? handle = some left :=
    Arena.live?_eq_some.2 ⟨foundLeft, by simpa using alive⟩
  refine (backward_finishes strict proceeds.sound liveLeft (counts_greatest _ 0) (by omega)).bind ?_
  intro _ third tries
  have recedes := (proceeds.trans tries.proceeds).recedes
  obtain ⟨_, liveThird, _⟩ := tries.has
  obtain ⟨_, last, ended, soundLast, leads, _, remarks⟩ : (settle handle).Returns third.2 _ :=
    Engine.markClause_returns recedes.sound (Arena.live?_eq_some.1 liveThird).1 (fun _ => rfl)
      fun _ => rfl
  exact .step (Run.lift_of_done ended) (finish _ (recedes.trans (.of_marks soundLast leads remarks)))

/-- Every turn takes a clause from the queue, and a clause comes back only after it lost a
literal. -/
theorem drainLoop_recedes (strict : ¬ Realm.Lenient) (fuel : Nat) (sound : state.2.Sound)
    (orderly : state.2.trail.Orderly) (knows : Knows known state)
    (enough : state.1.own.queue.length + state.2.arena.weight < fuel) :
    (drainLoop fuel).Finishes state (fun _ after => Recedes state after)
      fun cause _ => cause.isUnsat = true := by
  induction fuel generalizing state with
  | zero => exact absurd enough (Nat.not_lt_zero _)
  | succ fuel ih =>
    unfold drainLoop
    refine .step (Work.own_apply state.1 state.2) ?_
    split
    next => exact .pure ⟨sound, .refl sound, rfl, le_rfl⟩
    next handle rest queue =>
    have length : state.1.own.queue.length = rest.length + 1 := by rw [queue, List.length_cons]
    let popped : Tool Subsumer × Engine :=
      ({ state.1 with own := { state.1.own with queue := rest } }, state.2)
    have pops : Recedes state popped := by
      refine ⟨sound, .refl sound, rfl, ?_⟩
      change rest.length + state.2.arena.weight ≤ _
      omega
    have onward : ∀ middle : Tool Subsumer × Engine, Recedes popped middle →
        (drainLoop fuel).Finishes middle (fun _ after => Recedes state after)
          fun cause _ => cause.isUnsat = true := by
      intro middle recedes
      have sofar := pops.trans recedes
      refine (ih sofar.sound (sofar.leads.orderly orderly)
        (knows.of_leads sound sofar.leads sofar.graph) (recedes.fits.trans_lt ?_)).imp
          (fun _ _ => sofar.trans) fun _ _ => id
      change rest.length + state.2.arena.weight < fuel
      omega
    refine .step (Work.modifyOwn_apply _ state.1 state.2) (.step rfl ?_)
    split
    next => exact onward popped ⟨sound, .refl sound, rfl, le_rfl⟩
    next clause found =>
    obtain ⟨_, middle, ended, soundMiddle, leads, marks, remarks⟩ :
        (unqueue handle).Returns state.2 _ :=
      Engine.markClause_returns sound found (fun _ => rfl) fun _ => rfl
    have unqueued : ∀ budget : Budget, Recedes popped ({ popped.1 with budget := budget }, middle) := by
      intro budget
      obtain ⟨sound, leads, graph, fits⟩ : Recedes popped (popped.1, middle) :=
        .of_marks soundMiddle leads remarks
      exact ⟨sound, leads, graph, fits⟩
    refine .step (Run.lift_of_done ended) ?_
    split
    next => exact onward _ (unqueued _)
    next alive =>
    obtain ⟨goOn, budget, spent, _⟩ := Work.spend_done clause.size popped.1 middle
    refine .step spent ?_
    split
    swap
    next => exact .pure (pops.trans (unqueued budget))
    refine .step rfl ?_
    have foundMiddle := marks.get?_self found
    split
    next =>
      obtain ⟨_, last, ended, soundLast, leadsLast, _, remarksLast⟩ :
          (settle handle).Returns middle _ :=
        Engine.markClause_returns soundMiddle foundMiddle (fun _ => rfl) fun _ => rfl
      refine .step (Run.lift_of_done ended) (onward _ ((unqueued budget).trans ?_))
      exact .of_marks soundLast leadsLast remarksLast
    next =>
      have alive : clause.isDead = false := by simpa using alive
      have live := Arena.live?_eq_some.2 ⟨foundMiddle, alive⟩
      have sofar := pops.trans (unqueued budget)
      have simplifies : (simplifyClause handle).Finishes
          ({ popped.1 with budget := budget }, middle) _ _ :=
        simplifyClause_recedes strict soundMiddle (leads.orderly orderly)
          (knows.of_leads sound sofar.leads sofar.graph) live
      exact simplifies.bind fun _ after recedes => onward after ((unqueued budget).trans recedes)

/-- The queue is worked through, whatever the budget is. -/
theorem drain_recedes (strict : ¬ Realm.Lenient) (sound : state.2.Sound)
    (orderly : state.2.trail.Orderly) (knows : Knows known state) :
    drain.Finishes state (fun _ after => Recedes state after)
      fun cause _ => cause.isUnsat = true := by
  unfold drain
  refine .step (Work.own_apply state.1 state.2) (.step rfl ?_)
  refine (drainLoop_recedes strict _ sound orderly knows ?_).bind ?_
  · rw [Engine.liveLiterals_eq_weight]
    exact Nat.lt_succ_self _
  rintro _ ⟨tool, middle⟩ recedes
  refine .step (Work.own_apply tool middle) ?_
  obtain ⟨_, ⟨later, after⟩, ended, unmarks⟩ :
      (tool.own.queue.forM fun handle => (unqueue handle : Work Subsumer Unit)).Returns
        (tool, middle) _ := unqueueAll_returns _ recedes.sound
  obtain rfl : tool = later := unmarks.tool.symm
  refine .step ended (.of_returns (.of_done (Work.modifyOwn_apply _ tool after) ?_))
  refine recedes.trans ⟨unmarks.sound, unmarks.leads, rfl, ?_⟩
  have weight : after.arena.weight = middle.arena.weight := unmarks.weight
  change 0 + after.arena.weight ≤ tool.own.queue.length + middle.arena.weight
  omega

end Subsumer

/-! ## Attempts -/

theorem Trail.fuelless_assignAtRoot (literal : Literal) : (assignAtRoot literal).Fuelless := by
  unfold assignAtRoot
  refine .bind .update fun _ => .bind .get fun trail => ?_
  split
  · exact .fail
  refine .bind .access fun value => ?_
  split
  · exact .update
  · split
    · exact .pure
    · exact .fail

namespace Engine

variable {handle : Handle} {literal : Literal}

theorem fuelless_look {α : Type} {question : Engine → α} : (look question).Fuelless :=
  fun _ => .of_done rfl

theorem fuelless_removeClause : (removeClause handle).Fuelless :=
  .bind .read fun _ => .bind .modify fun _ => .bind .update fun _ => .bind .update fun _ => .modify

theorem fuelless_removeWithRecord : (removeWithRecord handle literal).Fuelless := by
  refine .bind .read fun clause => ?_
  dsimp only
  split
  · exact fuelless_removeClause
  · exact .bind .modify fun _ => fuelless_removeClause

/-- An assignment needs no fuel. -/
theorem fuelless_assignUnit : (assignUnit literal).Fuelless := by
  unfold assignUnit
  refine .bind .read fun value => ?_
  split
  · exact .pure
  · exact .fail
  refine .bind .read fun flags => ?_
  split
  · exact .fail
  refine .bind .modify fun _ => .bind (fun engine => ?_) fun _ => .bind .modify fun _ => .modify
  exact .within (onTrail_apply _ _) (Trail.fuelless_assignAtRoot literal _)

/-- Inserting a clause fails for lack of space only. -/
theorem fuelless_insertClause {literals : List Literal} {redundant : Bool} :
    (insertClause literals redundant).Fuelless := by
  intro engine
  by_cases room : engine.arena.slots.size + 1 < UInt32.size
  · exact .of_done (if_pos room)
  · have refused : insertClause literals redundant engine = .stuck .outOfSpace := if_neg room
    intro why stuck
    rw [refused] at stuck
    cases stuck
    nofun

/-- Storing a clause takes no loop. -/
theorem fuelless_storeClause {literals : List Literal} {redundant derived : Bool} :
    (storeClause literals redundant derived).Fuelless := by
  unfold storeClause
  refine .bind .get fun engine => ?_
  split
  · exact .fail
  dsimp only
  split
  · exact .pure
  refine .bind .access fun satisfied => ?_
  split
  · exact .pure
  refine .bind .access fun remaining => ?_
  split
  · exact .fail
  · exact .bind fuelless_assignUnit fun _ => .pure
  have inserts : (do
      let handle ← insertClause remaining redundant
      let stored ← clause handle
      updateIndex fun index => index.add handle stored.literals
      touch
      return some handle).Fuelless :=
    .bind fuelless_insertClause fun handle => .bind .read fun stored => .bind .update fun _ =>
      .bind .modify fun _ => .pure
  exact .ite (.bind .modify fun _ => inserts) inserts

end Engine

/-- What is made of deeds that do not run out of fuel does not run out of it. -/
theorem Made.fuelless {σ α : Type} [HasEngine σ] [HasNumbering σ] {body : Run σ α}
    (made : Made (fun _ => Run.Fuelless) body) : body.Fuelless := by
  induction made with
  | deed isDeed => exact isDeed
  | pure => exact .pure
  | fail => exact .fail
  | stop isDeed => exact fun state => .stop (isDeed (engineOf state) _ rfl)
  | read => exact .read
  | own done _ => exact fun state => .of_done (done state.1 state.2)
  | beside _ stops => exact fun state => absurd rfl (stops .outOfFuel state.2 .outOfFuel rfl)
  | bind _ _ first rest => exact .bind first rest
  | afterLook _ _ rest => exact .bind (.lift Engine.fuelless_look) rest
  | attempt _ made => exact fun state => (made state).attempt
  | lift _ made => exact made.lift
  | within part put ends _ made => exact fun state => .within (ends state) (made _)

instance : MayResolve fun _ => Run.Fuelless where
  prove _ := .modify
  count _ := .modify
  removeClause _ := Engine.fuelless_removeClause
  removeWithRecord _ _ := Engine.fuelless_removeWithRecord
  markClause _ _ := .modify
  storeClause _ _ _ := Engine.fuelless_storeClause
  eliminated _ := .bind .update fun _ => .modify

namespace Eliminator

theorem fuelless_spend {τ : Type} {steps : Nat} : (Work.spend steps : Work τ Bool).Fuelless :=
  fun _ => .of_done rfl

theorem onHeap_keepsFuel {α : Type} {body : Occurrences → Run VarHeap α}
    {state : Tool Eliminator × Engine}
    (keeps : (body state.2.index).KeepsFuel state.1.own.heap) : (onHeap body).KeepsFuel state :=
  .within (onHeap_apply body state) keeps

theorem onSubsumer_keepsFuel {α : Type} {body : Work Subsumer α} {state : Tool Eliminator × Engine}
    (keeps : body.KeepsFuel (state.1.own.subsumer, state.2)) :
    (onSubsumer body).KeepsFuel state := .within (onSubsumer_apply body state) keeps

/-- Nothing that is done to eliminate one variable goes on until something is reached. -/
theorem fuelless_eliminate {pivot : Nat} : (eliminate pivot).Fuelless := made_eliminate.fuelless

/-! ## Turns -/

section Turns

variable [Realm] {name : Nat} {state : Tool Eliminator × Engine}

/-- Work on a sound engine that leaves the tool ready can be gone on with. -/
theorem Working.reaches {α : Type} {body : Work Eliminator α}
    {post : α → Tool Eliminator × Engine → Prop} (working : Working state)
    (works : Works .removal body state fun value after => Ready after.1 ∧ post value after)
    (fuel : body.KeepsFuel state) :
    body.Reaches state fun value after => Working after ∧ post value after :=
  ⟨(works working.sound).imp
    (fun _ _ ⟨leads, ready, holds⟩ => ⟨working.of_leads leads ready, holds⟩) fun _ _ _ => trivial,
    fuel⟩

/-- After the root literals the work goes on. -/
theorem propagate_reaches (working : Working state) :
    (liftM Engine.propagateUnits : Work Eliminator Unit).Reaches state
      fun _ after => Working after :=
  (working.reaches (works_lift working.ready Engine.works_propagateUnits)
    (Engine.safe_propagateUnits working.sound (.inr working.orderly)).lift).imp
      (fun _ _ => And.left) fun _ _ => id

/-- The subsumer drains its queue within a turn. -/
theorem drain_reaches (strict : ¬ Realm.Lenient) (working : Working state) :
    (onSubsumer Subsumer.drain).Reaches state fun _ after => Working after := by
  have knows : Subsumer.Knows none (state.1.own.subsumer, state.2) :=
    ⟨⟨working.ready.plain, nofun, nofun⟩, nofun⟩
  have works : Works .removal (onSubsumer Subsumer.drain) state fun _ after =>
      Ready after.1 ∧ True :=
    (works_onSubsumer (Subsumer.works_drain knows.ready).to_removal).imp
      fun _ _ ⟨heap, plain⟩ => ⟨⟨plain, heap ▸ working.ready.heap⟩, trivial⟩
  have drains := Subsumer.drain_recedes strict working.sound working.orderly knows
  have fuel : Subsumer.drain.KeepsFuel (state.1.own.subsumer, state.2) :=
    fun why stuck => (drains.safe why stuck).elim
  exact (working.reaches works (onSubsumer_keepsFuel fuel)).imp (fun _ _ => And.left) fun _ _ => id

/-- Offering a variable comes to its end. -/
theorem offer_reaches (positive : 0 < name) (working : Working state) :
    (offer name).Reaches state fun _ after => Working after := by
  have fuel : (offer name).KeepsFuel state := by
    unfold offer
    refine .look (Run.Fuelless.lift .read state) Run.Looks.read.lift fun isRemovable _ => ?_
    split
    · exact onHeap_keepsFuel (VarHeap.insert_keepsFuel working.ready.heap positive)
    · exact .pure
  exact (working.reaches ((works_offer positive working.ready).imp fun _ _ ready =>
    ⟨ready, trivial⟩) fuel).imp (fun _ _ => And.left) fun _ _ => id

theorem offers_reach {names : List Nat} (positive : ∀ name ∈ names, 0 < name)
    (working : Working state) : (names.forM offer).Reaches state fun _ after => Working after :=
  .forM working fun name member _ => offer_reaches (positive name member)

/-- A turn comes to its end, and it leaves behind what the next one can work on. -/
theorem step_reaches (strict : ¬ Realm.Lenient) (working : Working state) :
    step.Reaches state fun _ after => Working after := by
  unfold step
  have selects : (onHeap VarHeap.select).Reaches state _ :=
    ⟨select_ends working, onHeap_keepsFuel VarHeap.select_keepsFuel⟩
  refine selects.bind fun selected taken ⟨working, _, names⟩ => ?_
  cases selected with
  | none => exact .pure working
  | some name =>
  obtain ⟨positive, _⟩ := names name rfl
  have spends : (Work.spend 1).Reaches taken _ := ⟨spend_ponders _, fuelless_spend taken⟩
  refine spends.bind fun enough paid ⟨own, engine⟩ => ?_
  have working : Working paid :=
    working.of_leads (engine.symm ▸ .refl working.sound) (working.ready.of_own own)
  split
  swap
  · exact .pure working
  refine .look (Run.Fuelless.lift .read paid) Run.Looks.read.lift fun isRemovable found => ?_
  split
  swap
  · exact .pure working
  next yes =>
  rw [yes] at found
  have works : Works .removal (eliminate name) paid fun touched after =>
      Ready after.1 ∧ ∀ other ∈ touched, 0 < other :=
    (worksOn_eliminate (Engine.removable_of_isRemovable? found) positive .refl).works.imp
      fun _ _ ⟨⟨held, names⟩, _⟩ => ⟨held.ready working.ready, names⟩
  refine (working.reaches works (fuelless_eliminate paid)).bind fun touched _ ⟨working, names⟩ => ?_
  split
  · exact .pure working
  refine (propagate_reaches working).bind fun _ _ working => ?_
  refine (drain_reaches strict working).bind fun _ _ working => ?_
  refine (offers_reach ?_ working).bind fun _ _ working => .pure working
  exact fun other member => names other (List.mem_filter.1 member).1

omit [Realm] in
/-- The loop gets stuck only where a turn does, or after a turn without progress. -/
theorem loop_safe {admitted : Breakdown → Prop} {keeps : Tool Eliminator × Engine → Prop}
    {failed : Error → Tool Eliminator × Engine → Prop}
    (turns : ∀ state, keeps state → step.Ends state (fun _ after => keeps after) failed)
    (safe : ∀ state, keeps state → step.Safe admitted state)
    (stalls : ∀ state after, keeps state → step state = .done true after →
      ¬ Further (progress after) (progress state) → admitted .outOfFuel)
    (reached : Nat × Nat × Nat) (current : reached = progress state) (holds : keeps state) :
    Run.Safe admitted (loop reached) state :=
  loop_induction (motive := fun reached state outcome => reached = progress state → keeps state →
      Run.Safe admitted (fun _ => outcome) state)
    (fun _ state _ _ stepped _ rest _ holds => rest rfl ((turns state holds).done_of_eq stepped))
    (fun _ state after stepped stalled current holds => .stop
      (stalls state after holds stepped (current ▸ stalled)))
    (fun _ _ _ _ _ _ => .of_done rfl) (fun _ _ _ _ _ _ _ => .of_failed rfl)
    (fun _ state _ stepped _ holds => .stop (safe state holds _ stepped)) reached state current holds

/-- The turns follow each other, since each of them made progress. -/
theorem loop_keepsFuel (strict : ¬ Realm.Lenient) (reached : Nat × Nat × Nat)
    (current : reached = progress state) (working : Working state) :
    Run.KeepsFuel (loop reached) state :=
  loop_safe (fun _ working => (step_reaches strict working).ends)
    (fun _ working => (step_reaches strict working).safe)
    (fun _ _ working stepped stalled =>
      absurd ((step_progresses working).done_of_eq stepped rfl) stalled) reached current working

/-! ## The whole run -/

/-- What a run does before its first turn: the variables that may go come into the heap. -/
def fill : Work Eliminator Unit := do
  Engine.propagateUnits
  let numVars ← Engine.look Engine.numVars
  onHeap fun _ => Run.update fun heap => (heap.expand numVars).clear
  Work.modifyOwn fun eliminator => { eliminator with grown := 0 }
  (List.range' 1 numVars).forM offer

omit [Realm] in
theorem run_eq : run = (do
    fill
    eliminateAll
    onHeap fun _ => Run.update VarHeap.clear) := by
  simp only [run, fill, bind_assoc]

/-- Filling the heap comes to its end. -/
theorem fill_reaches (sound : state.2.Sound) (clean : state.2.index.dirty = #[])
    (orderly : state.2.trail.Orderly) (plain : state.1.own.subsumer.own.graph = none) :
    fill.Reaches state fun _ after => Working after := by
  unfold fill
  have propagates : Works .removal (liftM Engine.propagateUnits : Work Eliminator Unit) state _ :=
    Engine.works_propagateUnits.lift
  have propagated : (liftM Engine.propagateUnits : Work Eliminator Unit).Reaches state _ :=
    ⟨(propagates sound).imp (fun _ _ => id) fun _ _ _ => trivial,
      (Engine.safe_propagateUnits sound (.inr orderly)).lift⟩
  refine propagated.bind fun _ ⟨tool, engine⟩ ⟨leads, own, _⟩ => ?_
  refine .look (Run.Fuelless.lift Engine.fuelless_look _) (.of_done rfl rfl) ?_
  rintro _ rfl
  have clears : (Run.update fun heap => (VarHeap.expand heap engine.numVars).clear).Ends
      tool.own.heap (fun _ after => after.Positive) fun _ _ => False :=
    .update fun after done => VarHeap.positive_of_clear done
  have sound := leads.sound sound
  have empties : (onHeap fun _ => Run.update fun heap =>
      (VarHeap.expand heap engine.numVars).clear).Reaches (tool, engine)
        fun _ after => Working after := by
    have works : Works .removal (onHeap fun _ => Run.update fun heap =>
        (VarHeap.expand heap engine.numVars).clear) (tool, engine) _ := works_onHeap clears
    refine ⟨(works sound).imp ?_ fun _ _ _ => trivial, onHeap_keepsFuel (Run.Fuelless.update _)⟩
    rintro _ after ⟨further, _, subsumer, heap⟩
    have leads := leads.trans further
    refine ⟨further.sound sound, leads.clean clean, leads.orderly orderly, ?_, heap⟩
    rw [subsumer]
    exact (congrArg (fun tool => tool.own.subsumer.own.graph) own).trans plain
  refine empties.bind fun _ emptied working => ?_
  have resets : (Work.modifyOwn fun eliminator => { eliminator with grown := 0 } :
      Work Eliminator Unit).Reaches emptied fun _ after => Working after :=
    ⟨.of_done rfl ⟨working.sound, working.clean, working.orderly, working.ready.plain,
      working.ready.heap⟩, .of_done rfl⟩
  refine resets.bind fun _ _ working => offers_reach ?_ working
  exact fun name member => (List.mem_range'_1.1 member).1

/-- The whole run comes to its end. -/
theorem run_keepsFuel (strict : ¬ Realm.Lenient) (sound : state.2.Sound)
    (clean : state.2.index.dirty = #[]) (orderly : state.2.trail.Orderly)
    (plain : state.1.own.subsumer.own.graph = none) : run.KeepsFuel state := by
  rw [run_eq]
  have fills := fill_reaches sound clean orderly plain
  refine fills.safe.bind fills.ends fun _ begun working => ?_
  have loops : eliminateAll.KeepsFuel begun := loop_keepsFuel strict _ rfl working
  exact loops.bind .trivial fun _ looped _ => onHeap_keepsFuel (Run.Fuelless.update _)

end Turns

/-! ## Budgets that never run out -/

variable {begun state after : Tool Eliminator × Engine}

/-- Put other budgets in place of the two that elimination spends from. -/
def refill (budget lent : Budget) (state : Tool Eliminator × Engine) : Tool Eliminator × Engine :=
  ({ state.1 with
      budget := budget
      own := { state.1.own with
        subsumer := { state.1.own.subsumer with budget := lent } } }, state.2)

/-- A turn after which elimination goes on, begun with any budgets. -/
def Turn (before after : Tool Eliminator × Engine) : Prop :=
  ∃ budget lent, step (refill budget lent before) = .done true after

theorem Working.refill [Realm] (working : Working state) (budget lent : Budget) :
    Working (refill budget lent state) :=
  ⟨working.sound, working.clean, working.orderly, working.ready.plain, working.ready.heap⟩

theorem Working.turn [Realm] (strict : ¬ Realm.Lenient) (working : Working state)
    (turn : Turn state after) : Working after := by
  obtain ⟨budget, lent, stepped⟩ := turn
  exact (step_reaches strict (working.refill budget lent)).ends.done_of_eq stepped

theorem Working.turns [Realm] (strict : ¬ Realm.Lenient) (working : Working begun)
    (turns : Relation.ReflTransGen Turn begun state) : Working state := by
  induction turns with
  | refl => exact working
  | tail _ turn ih => exact ih.turn strict turn

/-- Progress comes to an end. -/
instance : IsWellFounded (Nat × Nat × Nat) Further := by
  have lex : WellFounded (Prod.Lex (· < ·) (Prod.Lex (· < ·) (· < ·)) :
      Nat × Nat × Nat → Nat × Nat × Nat → Prop) :=
    WellFounded.prod_lex Nat.lt_wfRel.wf (WellFounded.prod_lex Nat.lt_wfRel.wf Nat.lt_wfRel.wf)
  refine ⟨Subrelation.wf ?_ lex⟩
  intro after before further
  simp only [Prod.lex_def]
  exact further

/-- Elimination ends by itself. A run never uses up the fuel of a loop, whatever its limits
are. Even if both budgets are filled up again and again, every turn comes to its end and makes
progress, and the turns come to an end. -/
theorem turns_end {engine : Engine} (ready : engine.Ready)
    (kept : ∀ clause ∈ engine.arena.liveClauses, ∀ literal ∈ clause.literals,
      ¬ engine.trail.Removed literal.var) (tool : Tool Eliminator) (limit : UInt64) :
    Run.KeepsFuel (do
        onSubsumer (Subsumer.start limit)
        run) (tool, engine) ∧
      ∀ begun, (do
        onSubsumer (Subsumer.start limit)
        fill : Work Eliminator Unit) (tool, engine) = .done () begun →
        (∀ state, Relation.ReflTransGen Turn begun state → ∀ budget lent,
          step.KeepsFuel (refill budget lent state) ∧
            ∀ after, step (refill budget lent state) = .done true after →
              Further (progress after) (progress state)) ∧
        ¬ ∃ states : Nat → Tool Eliminator × Engine,
          states 0 = begun ∧ ∀ n, Turn (states n) (states (n + 1)) := by
  let _ : Realm := .rootLenient
  have sound : engine.Sound := ready.rootSound kept
  refine ⟨.step rfl (run_keepsFuel id (by exact sound) ready.clean ready.orderly rfl), ?_⟩
  intro begun filled
  have fills : (do
      onSubsumer (Subsumer.start limit)
      fill : Work Eliminator Unit).Ends (tool, engine) (fun _ after => Working after)
        fun _ _ => True :=
    .step rfl (fill_reaches (by exact sound) ready.clean ready.orderly rfl).ends
  have working : Working begun := fills.done_of_eq filled
  have progresses : ∀ {state after}, Working state → Turn state after →
      Further (progress after) (progress state) := by
    rintro state after working ⟨budget, lent, stepped⟩
    exact (step_progresses (working.refill budget lent)).done_of_eq stepped rfl
  refine ⟨fun state turns budget lent => ?_, ?_⟩
  · have working := working.turns id turns
    exact ⟨(step_reaches id (working.refill budget lent)).safe,
      fun after stepped => progresses working ⟨budget, lent, stepped⟩⟩
  · rintro ⟨states, rfl, turns⟩
    have working : ∀ n, Working (states n) := by
      intro n
      induction n with
      | zero => exact working
      | succ n ih => exact ih.turn id (turns n)
    obtain ⟨n, stalled⟩ : ∃ n, ¬ Further (progress (states (n + 1))) (progress (states n)) :=
      WellFounded.not_rel_apply_succ fun n => progress (states n)
    exact stalled (progresses (working n) (turns n))

/-- The first turn on five clauses eliminates a variable. -/
theorem turns_end_five :
    ∃ (engine : Engine) (tool : Tool Eliminator) (begun after : Tool Eliminator × Engine)
      (limit : UInt64) (budget lent : Budget), engine.Ready ∧
      (∀ clause ∈ engine.arena.liveClauses, ∀ literal ∈ clause.literals,
        ¬ engine.trail.Removed literal.var) ∧
      (do
        onSubsumer (Subsumer.start limit)
        fill : Work Eliminator Unit) (tool, engine) = .done () begun ∧
      step (refill budget lent begun) = .done true after ∧
      progress begun = (5, 5, 4) ∧ progress after = (4, 4, 3) ∧
      Further (progress after) (progress begun) := by
  let budget : Budget := { limit := 100 }
  obtain ⟨_, start, made, isOpen, _, begun, filled, again, after, stepped, advanced⟩ :
      (Simplifier.addClauses [[1, 2], [-1, 3], [1, 3, 4], [2, -3, 4], [-2, -4]]).Returns
        (.ofVars {} 4) fun _ start => start.engine.unsat = false ∧
          Run.Returns (do
              onSubsumer (Subsumer.start 100)
              fill : Work Eliminator Unit) (start.tools.elimination, start.engine) fun _ begun =>
            step.Returns (refill budget budget begun) fun again after =>
              decide (again = true ∧ progress begun = (5, 5, 4) ∧ progress after = (4, 4, 3)) := by
    decide +kernel
  obtain ⟨rfl, first, second⟩ := of_decide_eq_true advanced
  obtain ⟨ready, kept⟩ := Simplifier.ready_of_ofClauses made (by decide) isOpen
  have ends := (turns_end ready kept start.tools.elimination 100).2 begun filled
  exact ⟨start.engine, _, begun, after, 100, budget, budget, ready, kept, filled, stepped,
    first, second, (ends.1 begun .refl budget budget).2 after stepped⟩

end Eliminator

end CnfSimplifier
