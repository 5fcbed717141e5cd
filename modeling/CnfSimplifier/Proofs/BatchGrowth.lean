import CnfSimplifier.Proofs.BoundedRuns
import CnfSimplifier.Proofs.BatchElimination

/-!
# The growth bound of batch elimination

Batch elimination builds the resolvents of a plan before it decides, so it knows what the
plan adds. A plan that eliminates is *paid for*: its cost was allowed for one variable,
and with it the growth of the pass stays within the total. What is carried out is the
plan, and it takes away all clauses that the cost was counted against. Nothing fails in
between, so a run keeps to its limits however it ends.
-/
namespace CnfSimplifier

/-- By how much a plan makes the formula grow. -/
def EliminationPlan.cost (plan : EliminationPlan) : Nat :=
  if plan.eliminate then plan.resolvents.size - (plan.positive.size + plan.negative.size) else 0

namespace Batch

variable {state middle after : Batch × Engine} {pivot : Nat} {literal : Literal}
  {failed : Error → Batch × Engine → Prop} {plan : EliminationPlan} {settings : Settings}

/-! ## Plans are paid for -/

/-- Only steps are spent. -/
structure Ponders (before after : Batch × Engine) : Prop where
  engine : after.2 = before.2
  grown : after.1.grown = before.1.grown

theorem Ponders.refl : Ponders state state := ⟨rfl, rfl⟩

theorem Ponders.trans (first : Ponders state middle) (second : Ponders middle after) :
    Ponders state after :=
  ⟨second.engine.trans first.engine, second.grown.trans first.grown⟩

theorem spend_ponders (steps : Nat) :
    (spend steps).Ends state (fun _ after => Ponders state after) failed := .of_done rfl ⟨rfl, rfl⟩

/-- Looking for blocked clauses changes nothing but the budget. -/
theorem planBlocked_ponders {partners : List Handle} (remaining : Nat) {side : Array Handle}
    {blocked : List (Handle × Literal)} :
    (planBlocked literal partners remaining side blocked).Ends state
      (fun _ after => Ponders state after) failed := by
  induction remaining generalizing state side blocked with
  | zero => exact .pure .refl
  | succ remaining ih =>
    unfold planBlocked
    refine Run.Looks.access.bind fun handle _ => ?_
    refine Run.Looks.bind Engine.looks_clause.lift fun clause _ => ?_
    refine .bind (spend_ponders _) fun goOn spent ponders => ?_
    have further : ∀ side blocked, (planBlocked literal partners remaining side blocked).Ends spent
        (fun _ after => Ponders state after) failed := fun side blocked =>
      ih.imp (fun _ _ => ponders.trans) fun _ _ => id
    split
    swap
    · exact .pure ponders
    refine .step rfl (Run.Looks.access.bind fun isBlocked _ => ?_)
    split
    · exact further _ _
    · exact further _ _

/-- Whether to eliminate is not decided by blocked clauses. -/
theorem planBothSides_ponders {withPositive withNegative : List Handle} :
    (planBothSides pivot withPositive withNegative plan).Ends state
      (fun found after => Ponders state after ∧ ∀ better, found = some better →
        better.eliminate = plan.eliminate) failed := by
  unfold planBothSides
  refine .bind (planBlocked_ponders _) fun found first ponders => ?_
  split
  · exact .pure ⟨ponders, nofun⟩
  refine .bind (planBlocked_ponders _) fun found second further => ?_
  split
  · exact .pure ⟨ponders.trans further, nofun⟩
  · refine .pure ⟨ponders.trans further, ?_⟩
    rintro _ ⟨⟩
    rfl

/-- Resolvents were added to a list: not more than a number of them, all together no more
than the limit for a variable allows, and each within the limit for resolvents. -/
structure Builds (settings : Settings) (old count : Nat) (sofar resolvents : Array (List Literal)) :
    Prop where
  few : resolvents.size ≤ sofar.size + count
  allowed : resolvents = sofar ∨
    UInt64.ofNat resolvents.size ≤ UInt64.ofNat old + settings.growth
  fit : ∀ literals ∈ resolvents.toList, literals ∈ sofar.toList ∨
    WithinLimit settings.resolventLength literals.length

section Builds

variable {old count more : Nat} {sofar between resolvents : Array (List Literal)}

theorem Builds.refl : Builds settings old count sofar sofar :=
  ⟨Nat.le_add_right _ _, .inl rfl, fun _ => .inl⟩

theorem Builds.trans (first : Builds settings old count sofar between)
    (second : Builds settings old more between resolvents) :
    Builds settings old (count + more) sofar resolvents := by
  refine ⟨?_, ?_, fun literals member => ?_⟩
  · have := first.few
    have := second.few
    omega
  · rcases second.allowed with rfl | allowed
    · exact first.allowed
    · exact .inr allowed
  · exact (second.fit literals member).elim (first.fit literals) .inr

/-- A resolvent that is allowed joins those built so far. -/
theorem Builds.push {literals : List Literal}
    (allowed : UInt64.ofNat (sofar.push literals).size ≤ UInt64.ofNat old + settings.growth)
    (within : WithinLimit settings.resolventLength literals.length) :
    Builds settings old 1 sofar (sofar.push literals) := by
  refine ⟨(Array.size_push _).le, .inr allowed, fun other member => ?_⟩
  rw [Array.toList_push] at member
  rcases List.mem_append.1 member with inside | last
  · exact .inl inside
  · obtain rfl := List.mem_singleton.1 last
    exact .inr within

end Builds

/-- The resolvents of one clause keep to the bound. -/
theorem resolveAgainst_builds {old : Nat} {literals : List Literal}
    (short : literals.length ≤ UInt32.size) (negative : List Handle) {sofar : Array (List Literal)} :
    (resolveAgainst old pivot literals negative sofar).Ends state
      (fun found after => Ponders state after ∧ ∀ resolvents, found = some resolvents →
        Builds state.2.settings old negative.length sofar resolvents) failed := by
  induction negative generalizing state sofar with
  | nil =>
    refine .pure ⟨.refl, ?_⟩
    rintro _ ⟨⟩
    exact .refl
  | cons handle rest ih =>
    unfold resolveAgainst
    refine Run.Looks.bind Engine.looks_clause.lift fun other _ => ?_
    refine .bind (spend_ponders _) fun goOn spent ponders => ?_
    split
    swap
    · exact .pure ⟨ponders, by simp⟩
    refine .step rfl ?_
    -- What comes after builds on what there is by then.
    have further : ∀ {now : Array (List Literal)} {front : Nat},
        Builds state.2.settings old front sofar now → front ≤ 1 →
        (resolveAgainst old pivot literals rest now).Ends spent
          (fun found after => Ponders state after ∧ ∀ resolvents, found = some resolvents →
            Builds state.2.settings old (handle :: rest).length sofar resolvents) failed := by
      intro now front builds few
      refine ih.imp ?_ fun _ _ => id
      rintro found after ⟨onward, result⟩
      refine ⟨ponders.trans onward, fun resolvents isFound => ?_⟩
      have later := result resolvents isFound
      rw [ponders.engine] at later
      obtain ⟨most, allowed, fit⟩ := builds.trans later
      refine ⟨most.trans ?_, allowed, fit⟩
      rw [List.length_cons]
      omega
    split
    · exact further .refl (Nat.zero_le 1)
    next resolvent found =>
      dsimp only
      split
      · exact .pure ⟨ponders, by simp⟩
      next accepted =>
      simp only [Bool.or_eq_true, decide_eq_true_eq, not_or, UInt64.not_lt] at accepted
      obtain ⟨⟨_, fits⟩, allowed⟩ := accepted
      rw [ponders.engine] at fits allowed
      have below := Resolution.length_resolvent?_le found
      have bound := other.size_le
      refine further (.push allowed (Settings.withinLimit (Bool.not_eq_true _ ▸ fits) ?_)) le_rfl
      have size : UInt32.size = 4294967296 := rfl
      have wide : UInt64.size = 18446744073709551616 := rfl
      change other.literals.length ≤ _ at bound
      omega

/-- The resolvents of all clauses keep to the bound. -/
theorem resolveAll_builds {old : Nat} {negative : List Handle} (positive : List Handle)
    {sofar : Array (List Literal)} :
    (resolveAll old pivot negative positive sofar).Ends state
      (fun found after => Ponders state after ∧ ∀ resolvents, found = some resolvents →
        Builds state.2.settings old (positive.length * negative.length) sofar resolvents)
      failed := by
  induction positive generalizing state sofar with
  | nil =>
    refine .pure ⟨.refl, ?_⟩
    rintro _ ⟨⟩
    exact .refl
  | cons handle rest ih =>
    unfold resolveAll
    refine Run.Looks.bind Engine.looks_clause.lift fun clause _ => ?_
    refine .bind (resolveAgainst_builds clause.size_le negative) ?_
    rintro row middle ⟨ponders, builds⟩
    cases row with
    | none => exact .pure ⟨ponders, by simp⟩
    | some now =>
    refine ih.imp ?_ fun _ _ => id
    rintro found after ⟨onward, result⟩
    refine ⟨ponders.trans onward, fun resolvents isFound => ?_⟩
    have later := result resolvents isFound
    rw [ponders.engine] at later
    rw [List.length_cons, Nat.succ_mul, Nat.add_comm]
    exact (builds now rfl).trans later

/-- The growth of a pass with a plan: what the plan costs was added, and if it eliminates,
that was within the limits. -/
structure Pays (settings : Settings) (plan : EliminationPlan) (before after : Nat) : Prop where
  grown : after = before + plan.cost
  total : plan.eliminate = true → after ≤ settings.totalGrowth.toNat
  builds : plan.eliminate = true →
    Builds settings (plan.positive.size + plan.negative.size)
      (plan.positive.size * plan.negative.size) #[] plan.resolvents

theorem Pays.of_spared {before : Nat} (spared : plan.eliminate = false) :
    Pays settings plan before before := by
  refine ⟨?_, ?_, ?_⟩ <;> simp [spared, EliminationPlan.cost]

/-- What a plan adds to the formula is paid for. -/
theorem planElimination_pays (spared : plan.eliminate = false) :
    (planElimination pivot plan).Ends state (fun better after => after.2 = state.2 ∧
      Pays state.2.settings better state.1.grown after.1.grown) failed := by
  unfold planElimination
  refine .bind (resolveAll_builds _) fun found middle ⟨ponders, builds⟩ => ?_
  have declined : (pure plan : Run (Batch × Engine) EliminationPlan).Ends middle
      (fun better after => after.2 = state.2 ∧
        Pays state.2.settings better state.1.grown after.1.grown) failed :=
    .pure ⟨ponders.engine, ponders.grown ▸ .of_spared spared⟩
  cases found with
  | none => exact declined
  | some resolvents =>
  refine .step rfl (.step rfl ?_)
  dsimp only
  split
  swap
  · exact declined
  next paid =>
  have built := builds resolvents rfl
  rw [Array.length_toList, Array.length_toList] at built
  rw [ponders.engine] at paid
  refine .step rfl (.pure ⟨ponders.engine, ?_, fun _ => (Nat.le_add_right _ _).trans paid,
    fun _ => built⟩)
  change _ + (_ - _) = _
  rw [ponders.grown]
  rfl

/-- The plan for a variable is paid for. Without one nothing was spent. -/
theorem plan_pays (pivot : Nat) :
    (Batch.plan pivot).Ends state (fun found after => after.2 = state.2 ∧
      match found with
      | none => after.1.grown = state.1.grown
      | some plan => Pays state.2.settings plan state.1.grown after.1.grown) failed := by
  have clauses : ∀ (literal : Literal), (Eliminator.clausesWith literal).Looks state.2
      fun _ => True := fun literal =>
    (Eliminator.made_clausesWith.leaves state.2 _).imp (fun _ _ same => ⟨same, trivial⟩) fun _ _ => id
  unfold Batch.plan
  refine Run.Looks.bind (clauses _).lift fun (positive, positiveRedundant) _ => ?_
  refine Run.Looks.bind (clauses _).lift fun (negative, negativeRedundant) _ => .step rfl ?_
  refine Run.Looks.bind Engine.looks_occurrences.lift fun _ _ => ?_
  refine Run.Looks.bind Engine.looks_occurrences.lift fun _ _ => .step rfl ?_
  have decides : ∀ (plan : EliminationPlan) (now : Batch × Engine), Ponders state now →
      plan.eliminate = false →
      (do
        let plan ← planElimination pivot plan
        if (plan.blocked.isEmpty && !plan.eliminate) = true then return none
        else return some plan : Run (Batch × Engine) (Option EliminationPlan)).Ends now
        (fun found after => after.2 = state.2 ∧
          match found with
          | none => after.1.grown = state.1.grown
          | some plan => Pays state.2.settings plan state.1.grown after.1.grown) failed := by
    intro plan now ponders spared
    refine .bind (planElimination_pays spared) fun better after ⟨engine, pays⟩ => ?_
    rw [ponders.engine] at engine pays
    rw [ponders.grown] at pays
    split
    next nothing =>
      have spared : better.eliminate = false := by simp_all
      refine .pure ⟨engine, ?_⟩
      have grown := pays.grown
      rwa [EliminationPlan.cost, if_neg (by simp [spared])] at grown
    · exact .pure ⟨engine, pays⟩
  split
  · exact .pure ⟨rfl, rfl⟩
  dsimp only
  split
  · refine .bind planBothSides_ponders fun found middle ⟨ponders, same⟩ => ?_
    cases found with
    | none => exact .pure ⟨ponders.engine, ponders.grown⟩
    | some better => exact decides better middle ponders (same better rfl)
  · exact .step rfl (decides _ state .refl rfl)

/-! ## Carrying plans out -/

/-- Clauses within the limit come, others go, and the growth of the pass stands. -/
structure Serves (limit : UInt64) (before after : Batch × Engine) : Prop where
  engine : before.2.Enlarges limit after.2
  grown : after.1.grown = before.1.grown

/-- A computation carries something out. -/
def Commits (limit : UInt64) {α : Type} (body : Run (Batch × Engine) α) : Prop :=
  ∀ state, body.Ends state (fun _ after => Serves limit state after) fun _ after =>
    state.2.Enlarges limit after.2

section Commits

variable {limit : UInt64} {α β : Type} {body : Run (Batch × Engine) α}

theorem Serves.refl : Serves limit state state := ⟨(Engine.Wanes.refl _).enlarges, rfl⟩

theorem Serves.trans (first : Serves limit state middle) (second : Serves limit middle after) :
    Serves limit state after :=
  ⟨first.engine.trans second.engine, second.grown.trans first.grown⟩

theorem Commits.pure {value : α} : Commits limit (pure value) := fun _ => .pure .refl

theorem Commits.bind {next : α → Run (Batch × Engine) β} (first : Commits limit body)
    (rest : ∀ value, Commits limit (next value)) : Commits limit (body >>= next) := by
  intro state
  refine (first state).bind fun value after serves => ?_
  exact (rest value after).imp (fun _ _ => serves.trans) fun _ _ => serves.engine.trans

theorem Commits.forM {ι : Type} {items : List ι} {turn : ι → Run (Batch × Engine) PUnit}
    (commits : ∀ item ∈ items, Commits limit (turn item)) : Commits limit (items.forM turn) :=
  Run.forM_of_turns (motive := Commits limit) .pure (fun first rest => first.bind fun _ => rest)
    commits

theorem Commits.lift {body : Run Engine α} (tracks : Tracks (Engine.Enlarges limit) body) :
    Commits limit (liftM body) := by
  intro state
  refine (Run.Ends.lift (tracks state.2)).imp ?_ fun _ _ => id
  rintro _ after ⟨same, enlarges⟩
  exact ⟨enlarges, by rw [same]⟩

theorem Commits.modify {change : Batch → Batch} (same : ∀ batch, (change batch).grown = batch.grown) :
    Commits limit (modifyBatch change) :=
  fun state => .of_done rfl ⟨(Engine.Wanes.refl _).enlarges, same state.1⟩

theorem commits_recordClause {chosen : Literal} {handle : Handle} :
    Commits limit (liftM (recordClause chosen handle)) :=
  .lift (.after Engine.leaves_clause fun _ => Engine.tracks_pushRecord)

/-- Storing a resolvent adds one clause of allowed length. -/
theorem commits_storeResolvent {literals : List Literal}
    (within : WithinLimit limit literals.length) : Commits limit (storeResolvent literals) := by
  have inserts : Tracks (Engine.Enlarges limit) (Engine.insertClause literals false) := fun engine =>
    (Engine.insertClause_onlyAdds within).imp (fun _ _ adds => adds.toGrowsBy.enlarges)
      fun _ _ => id
  exact .bind (.lift Engine.tracks_prove) fun _ => .bind (.lift inserts) fun handle =>
    .bind (.lift (.of_leaves Engine.leaves_clause)) fun stored =>
      .bind (.lift Engine.tracks_updateIndex) fun _ => .modify fun _ => rfl

theorem commits_removeLazily {handle : Handle} : Commits limit (liftM (removeLazily handle)) :=
  .lift (.after Engine.leaves_clause fun _ => .bind Engine.tracks_updateIndex
    fun _ => Engine.tracks_updateArena fun _ _ => Tolerant.removes)

/-- Committing a plan adds its resolvents and no other clause. -/
theorem commits_commit {plan : EliminationPlan}
    (fit : plan.eliminate = true → ∀ literals ∈ plan.resolvents.toList,
      WithinLimit limit literals.length) : Commits limit (commit pivot plan) := by
  unfold commit
  refine .bind (.forM fun _ _ => commits_recordClause) fun _ => ?_
  cases eliminate : plan.eliminate with
  | false =>
    simp only [Bool.false_eq_true, if_false]
    refine .bind (.forM fun _ _ => commits_removeLazily) fun _ => ?_
    exact .bind (.modify fun _ => rfl) fun _ => .pure
  | true =>
    simp only [if_true]
    refine .bind (.forM fun literals member => commits_storeResolvent (fit eliminate literals member))
      fun _ => ?_
    refine .bind (.forM fun _ _ => commits_recordClause) fun _ => ?_
    refine .bind (.forM fun _ _ => commits_recordClause) fun _ => ?_
    refine .bind (.forM fun _ _ => commits_removeLazily) fun _ => ?_
    exact .bind (.modify fun _ => rfl) fun _ => .modify fun _ => rfl

end Commits

/-! ## A pass -/

/-- A pass has kept to its limits so far, and its counter says by how much the formula grew. -/
structure Balanced (start : Engine) (grown : Nat) (engine : Engine) : Prop where
  enlarges : start.Enlarges start.settings.resolventLength engine
  few : engine.arena.contents.card ≤ start.arena.contents.card + grown
  total : grown ≤ start.settings.totalGrowth.toNat
  level : start.settings.growth = 0 → grown = 0

variable {start engine : Engine} {grown : Nat}

theorem Balanced.of_wanes (wanes : start.Wanes engine) : Balanced start 0 engine :=
  ⟨wanes.enlarges, wanes.arena.fewer, Nat.zero_le _, fun _ => rfl⟩

/-- What comes after a pass adds nothing. -/
theorem Balanced.grows {last : Engine} (balanced : Balanced start grown engine)
    (grows : engine.GrowsBy start.settings.resolventLength 0 last) : Balanced start grown last :=
  ⟨balanced.enlarges.trans grows.enlarges, grows.arena.few.trans balanced.few, balanced.total,
    balanced.level⟩

/-- What is balanced stays within the bounds. -/
theorem Balanced.bounded (balanced : Balanced start grown engine) : start.Bounded engine := by
  have few := balanced.few
  rw [Arena.card_contents_eq_length, Arena.card_contents_eq_length] at few
  refine ⟨few.trans (Nat.add_le_add_left balanced.total _), fun none => ?_⟩
  rwa [balanced.level none] at few

/-- Planned resolvents are within the limit. -/
theorem Pays.fits {before after : Nat} (pays : Pays settings plan before after)
    (eliminate : plan.eliminate = true) :
    ∀ literals ∈ plan.resolvents.toList, WithinLimit settings.resolventLength literals.length :=
  fun literals inside => ((pays.builds eliminate).fit literals inside).resolve_left (by simp)

/-- A plan that eliminates has no more resolvents than its clauses and the limit together. -/
theorem Pays.size_le {before after : Nat} (pays : Pays settings plan before after)
    (eliminate : plan.eliminate = true)
    (few : plan.positive.size + plan.negative.size < UInt32.size) :
    plan.resolvents.size ≤ plan.positive.size + plan.negative.size + settings.growth.toNat := by
  obtain ⟨most, allowed, _⟩ := pays.builds eliminate
  rw [Array.size_empty, Nat.zero_add] at most
  rcases allowed with none | allowed
  · rw [none]
    exact Nat.zero_le _
  · have small := Eliminator.two_mul_lt_of_le_mul few most
    have size : UInt32.size = 4294967296 := rfl
    have wide : UInt64.size = 18446744073709551616 := rfl
    have below := UInt64.le_iff_toNat_le.1 allowed
    rw [UInt64.toNat_ofNat_of_lt' (by omega), UInt64.toNat_add,
      UInt64.toNat_ofNat_of_lt' (by omega)] at below
    exact below.trans (Nat.mod_le _ _)

/-- A plan that is paid for was carried out. -/
theorem Balanced.carries {records : List Record} {last : Engine} {paid : Nat}
    (balanced : Balanced start grown engine) (pays : Pays start.settings plan grown paid)
    (few : plan.positive.size + plan.negative.size < UInt32.size)
    (enlarges : engine.Enlarges start.settings.resolventLength last)
    (carries : Carries engine plan.added records plan.removed last) : Balanced start paid last := by
  have counted := congrArg Multiset.card carries.contents
  rw [Multiset.card_add, Multiset.card_add, Multiset.coe_card, Multiset.coe_card,
    List.length_map] at counted
  have before := balanced.few
  have sum := pays.grown
  cases eliminate : plan.eliminate with
  | false =>
    simp only [EliminationPlan.added, EliminationPlan.removed, EliminationPlan.cost, eliminate,
      Bool.false_eq_true, if_false, List.length_nil] at counted sum
    rw [Nat.add_zero] at sum
    subst sum
    exact ⟨balanced.enlarges.trans enlarges, by omega, balanced.total, balanced.level⟩
  | true =>
    have most := pays.size_le eliminate few
    simp only [EliminationPlan.added, EliminationPlan.removed, EliminationPlan.cost, eliminate,
      if_true, List.length_append, Array.length_toList] at counted sum
    refine ⟨balanced.enlarges.trans enlarges, by omega, pays.total eliminate, fun none => ?_⟩
    have flat := balanced.level none
    have zero : (0 : UInt64).toNat = 0 := rfl
    rw [none, zero] at most
    omega

/-- The clauses that a plan replaces are different live clauses. -/
theorem Sensible.few (sensible : Sensible engine literal plan)
    (space : engine.arena.slots.size < UInt32.size) :
    plan.positive.size + plan.negative.size < UInt32.size := by
  have whole : engine.arena.Distinct plan.handles := ⟨sensible.distinct, sensible.live⟩
  have sublist : (plan.positive.toList ++ plan.negative.toList).Sublist plan.handles :=
    (List.sublist_append_left _ _).trans (List.sublist_append_right _ _)
  have few := ((whole.of_sublist sublist).length_le space.le).trans_lt space
  rwa [List.length_append, Array.length_toList, Array.length_toList] at few

/-- A pass that is on its way from one engine and has kept to the limits of another. -/
structure Serving [Realm] (start base : Engine) (state : Batch × Engine) : Prop where
  passing : Passing base state
  balanced : Balanced start state.1.grown state.2

/-- An attempt keeps to the limits. -/
theorem Serving.attempt_ends [Realm] {base : Engine} (sound : base.Sound)
    (space : start.arena.slots.size < UInt32.size) (serving : Serving start base state)
    (found : state.1.removable[pivot]? = some true) :
    (attempt pivot).Ends state (fun _ after => Serving start base after) failed := by
  obtain ⟨passing, balanced⟩ := serving
  have planned : (plan pivot).Meets (fun _ => True) state _ failed :=
    .of_returns (@Passing.plan_returns _ _ failed _ _ sound passing found)
  refine ((planned.ends.and (@plan_pays _ failed pivot)).imp (fun _ _ => id) fun _ _ => And.left).bind ?_
  rintro (_ | plan) planned ⟨⟨further, result⟩, same, pays⟩
  · exact .pure ⟨further, by rwa [same, pays]⟩
  obtain ⟨sensible, carriesOut⟩ := result plan rfl
  rw [balanced.enlarges.settings] at pays
  have few := sensible.few (same ▸ balanced.enlarges.space space)
  refine (Run.Ends.and carriesOut.ends (commits_commit pays.fits planned)).imp ?_ fun _ _ => And.left
  rintro _ after ⟨⟨passing, carries⟩, serves⟩
  refine ⟨passing, ?_⟩
  rw [serves.grown]
  rw [← same] at balanced
  exact balanced.carries pays few serves.engine carries

/-- Serving the queue keeps to the limits. -/
theorem serve_balanced [Realm] {base : Engine} (sound : base.Sound)
    (space : start.arena.slots.size < UInt32.size) (moves : List Move) (queue : List (Nat × Nat))
    (serving : Serving start base state) :
    (serve moves queue).Ends state (fun _ after => Serving start base after) failed := by
  have aside : Uncounting (Serving start base) := fun _ _ _ _ _ serving =>
    ⟨serving.passing.of_thinks ⟨rfl, rfl, rfl, rfl, rfl⟩, serving.balanced⟩
  have served : (serve moves queue).Meets (fun _ => True) state _ failed :=
    serve_meets aside (fun _ (_ : True) _ _ _ => trivial)
      (fun _ _ serving found => .of_ends (serving.attempt_ends sound space found))
      moves (fun _ _ => trivial) serving
  exact served.ends

/-- Serving the queue stores no resolvent beyond the limit. -/
theorem serve_enlarges (moves : List Move) (queue : List (Nat × Nat))
    (enlarges : start.Enlarges start.settings.resolventLength state.2) :
    (serve moves queue).Ends state
      (fun _ after => start.Enlarges start.settings.resolventLength after.2)
      fun _ after => start.Enlarges start.settings.resolventLength after.2 := by
  let keeps : Batch × Engine → Prop := fun state =>
    start.Enlarges start.settings.resolventLength state.2
  have attempts : ∀ pivot state, keeps state → (attempt pivot).Ends state (fun _ => keeps)
      fun _ => keeps := by
    intro pivot state enlarges
    refine (plan_pays pivot).bind ?_
    rintro (_ | plan) planned ⟨same, pays⟩
    · refine .pure ?_
      change start.Enlarges _ planned.2
      rwa [same]
    rw [enlarges.settings] at pays
    change start.Enlarges _ state.2 at enlarges
    rw [← same] at enlarges
    exact (commits_commit (pays.fits) planned).imp (fun _ _ serves => enlarges.trans serves.engine)
      fun _ _ => enlarges.trans
  have aside : Uncounting keeps := fun _ _ _ _ _ => id
  have served : (serve moves queue).Meets (fun _ => True) state (fun _ => keeps) fun _ => keeps :=
    serve_meets aside (fun _ (_ : True) _ _ _ => trivial)
      (fun pivot state enlarges _ => .of_ends (attempts pivot state enlarges)) moves
      (fun _ _ => trivial) enlarges
  exact served.ends

end Batch

/-! ## Runs -/

/-- That clauses are not added is left alone by the rest of the operations. -/
instance {limit : UInt64} : TolerantOfMarks (Engine.GrowsBy limit 0) :=
  .of_shrinks (fun engine => (Engine.Wanes.refl engine).grows) (fun first second => first.trans second)
    (fun arena trail settings => (Engine.Wanes.of_aside arena trail settings).grows)
    (fun shrinks => (Engine.Wanes.of_shrinks shrinks).grows) fun engine literal =>
      (Engine.Wanes.assigns engine literal).imp (fun _ _ wanes => wanes.grows)
        fun _ _ wanes => wanes.grows

namespace BatchEliminator

variable {state : Tool BatchEliminator × Engine} {limit : UInt64}

/-- Taking stock adds nothing. -/
theorem tracks_takeStock {batch : Batch} : Tracks (Engine.GrowsBy limit 0) (takeStock batch) := by
  have eliminated : ∀ name, Tracks (Engine.GrowsBy limit 0) (reportEliminated name) := fun name =>
    .bind (.bind (fun engine => Engine.updateTrail_ends fun _ _ => ⟨.refl, rfl⟩)
      fun _ => Engine.tracks_touch) fun _ => Engine.tracks_count
  have deleted : ∀ handle, Tracks (Engine.GrowsBy limit 0) (reportDeleted handle) := fun handle =>
    .after Engine.leaves_clause fun _ => .bind Engine.tracks_prove fun _ => Engine.tracks_touch
  exact .bind (.of_aside fun _ => ⟨rfl, rfl, rfl, rfl, rfl, rfl, le_rfl⟩) fun _ =>
    .bind Engine.tracks_count fun _ => .bind (.forM deleted) fun _ => .forM eliminated

/-- A pass over the removable variables keeps to the limits. -/
theorem pass_balanced [Realm] {start engine : Engine} {tool : Tool BatchEliminator}
    (sound : engine.Sound) (space : start.arena.slots.size < UInt32.size)
    (wanes : start.Wanes engine) {counted : List (Nat × Int)}
    (found : removableVars? engine (List.range' 1 engine.numVars) = some counted)
    {failed : Error → Tool BatchEliminator × Engine → Prop} :
    (pass (queueOf counted) (tableOf engine.numVars counted)).Ends (tool, engine)
      (fun batch after => Batch.Serving start engine (batch, after.2)) failed := by
  obtain ⟨_, passing⟩ := passing_start sound found tool.budget.limit
  exact (pass_meets fun moves => .of_ends (Batch.serve_balanced sound space moves _
    ⟨passing, .of_wanes wanes⟩)).ends.imp (fun _ _ => And.left) fun _ _ => id

/-- Work that only takes clauses away and leaves a sound engine. -/
theorem wanes_soundly [Realm] {α : Type} {body : Work BatchEliminator α}
    {post : α → Tool BatchEliminator × Engine → Prop} (tracks : Tracks Engine.Wanes body)
    (works : Works .removal body state post) (sound : state.2.Sound) :
    body.Ends state (fun _ after => state.2.Wanes after.2 ∧ after.2.Sound)
      fun _ after => state.2.Wanes after.2 :=
  ((tracks state).and (works sound)).imp
    (fun _ _ ⟨wanes, leads, _⟩ => ⟨wanes, leads.sound sound⟩) fun _ _ => And.left

/-- A pass keeps to the limits, and so does the run up to there. -/
theorem sweep_balanced [Realm] (sound : state.2.Sound) :
    sweep.Ends state (fun _ after => ∃ grown, Batch.Balanced state.2 grown after.2)
      fun _ after => ∃ grown, Batch.Balanced state.2 grown after.2 := by
  have space := sound.space
  unfold sweep
  refine .bind ((wanes_soundly (.lift Engine.tracks_propagateUnits)
    Engine.works_propagateUnits.lift sound).imp (fun _ _ => id)
      fun _ _ wanes => ⟨0, .of_wanes wanes⟩) fun _ propagated ⟨first, sound⟩ => ?_
  have cleans : Tracks Engine.Wanes (liftM (modify fun engine => { engine with
      index := engine.index.clean engine.arena } : Run Engine Unit) : Work BatchEliminator Unit) :=
    .lift (.of_aside fun _ => ⟨rfl, rfl, rfl, rfl, rfl, rfl, le_rfl⟩)
  refine .bind ((wanes_soundly cleans works_clean.lift sound).imp (fun _ _ => id)
    fun _ _ wanes => ⟨0, .of_wanes (first.trans wanes)⟩) fun _ (tool, engine) ⟨second, sound⟩ => ?_
  refine .step rfl (Run.Looks.access.bind fun counted found => ?_)
  refine .bind (pass_balanced sound space (first.trans second) found) fun batch passed serving => ?_
  have rest : ∀ limit, Tracks (Engine.GrowsBy state.2.settings.resolventLength 0) (do
      charge limit
      (liftM (takeStock batch) : Work BatchEliminator Unit)
      onSubsumer (Subsumer.start (engine.stepLimit engine.settings.subsumptionSteps))
      return batch) := fun limit =>
    .bind (.of_aside fun _ => ⟨rfl, rfl, rfl, rfl, rfl, rfl, le_rfl⟩) fun _ =>
      .bind (.lift tracks_takeStock) fun _ => .bind ((made_onSubsumer Subsumer.made_start).tracks) fun _ =>
        .pure
  exact (rest _ passed).imp (fun _ _ grows => ⟨_, serving.balanced.grows grows⟩)
    fun _ _ grows => ⟨_, serving.balanced.grows grows⟩

/-- What comes after the pass adds nothing. -/
theorem run_balanced [Realm] (sound : state.2.Sound) :
    run.Ends state (fun _ after => ∃ grown, Batch.Balanced state.2 grown after.2)
      fun _ after => ∃ grown, Batch.Balanced state.2 grown after.2 := by
  refine (sweep_balanced sound).bind fun batch swept ⟨grown, balanced⟩ => ?_
  have rest : Tracks (Engine.GrowsBy state.2.settings.resolventLength 0) (tidy batch) :=
    (made_tidy batch).tracks
  exact (rest swept).imp (fun _ _ grows => ⟨grown, balanced.grows grows⟩)
    fun _ _ grows => ⟨grown, balanced.grows grows⟩

/-- Batch elimination keeps to its limits. -/
theorem process_bounded {engine : Engine} (ready : engine.Ready)
    (kept : ∀ clause ∈ engine.arena.liveClauses, ∀ literal ∈ clause.literals,
      ¬ engine.trail.Removed literal.var) (tool : Tool BatchEliminator) :
    process.Ends (tool, engine) (fun _ after => engine.StoresWithin after.2 ∧ engine.Bounded after.2)
      fun _ _ => False := by
  let _ : Realm := .rootLenient
  have sound : engine.Sound := ready.rootSound kept
  have ends : ∀ started : Tool BatchEliminator, run.Ends (started, engine)
      (fun _ after => ∃ grown, Batch.Balanced engine grown after.2)
      fun cause after => cause.isUnsat = true ∧ ∃ grown, Batch.Balanced engine grown after.2 := by
    intro started
    refine ((run_balanced sound).and (works_run sound)).imp (fun _ _ => And.left)
      fun cause after ⟨balanced, fails⟩ => ⟨?_, balanced⟩
    exact fails.reason.elim And.left fun lenient => lenient.1.elim
  unfold process
  refine .imp (Work.process_ends_of_ends ends) ?_ fun _ _ => id
  rintro status after ⟨last, arena, stops⟩
  obtain ⟨grown, balanced⟩ : ∃ grown, Batch.Balanced engine grown last.2 :=
    stops.elim id fun stopped => stopped.2.elim fun _ => id
  exact ⟨balanced.enlarges.storesWithin.of_arena arena, balanced.bounded.of_arena arena⟩

/-- Whatever the queue, a pass stores no resolvent beyond the limit. -/
theorem pass_storesWithin {engine : Engine} (queue : List Nat) (removable : Array Bool)
    (tool : Tool BatchEliminator) :
    (pass queue removable).Ends (tool, engine) (fun _ after => engine.StoresWithin after.2)
      fun _ after => engine.StoresWithin after.2 := by
  have start : engine.Enlarges engine.settings.resolventLength engine := (Engine.Wanes.refl _).enlarges
  exact (pass_meets fun moves => .of_ends ((Batch.serve_enlarges moves _ (by exact start)).imp
    (fun _ _ enlarges => Engine.Enlarges.storesWithin enlarges)
    fun _ _ enlarges => Engine.Enlarges.storesWithin enlarges)).ends.imp (fun _ _ => And.left)
      fun _ _ => id

end BatchEliminator

/-! ## All techniques that eliminate -/

/-- Elimination keeps to its limits. A call of `eliminate` that returns adds no more
clauses than the limit for a variable, and none if it declines. A run, of elimination or
of batch elimination, adds no more than the limit for a run, and none at all if the limit
for a variable is zero; a run of elimination that finds no model in the middle of an
attempt was within these bounds up to that attempt. Every resolvent is stored within the
limit for resolvents. -/
theorem Engine.growth_bounded {engine : Engine} (ready : engine.Ready)
    (kept : ∀ clause ∈ engine.arena.liveClauses, ∀ literal ∈ clause.literals,
      ¬ engine.trail.Removed literal.var) :
    (∀ (tool : Tool Eliminator) (pivot : Nat), (Eliminator.eliminate pivot).Ends (tool, engine)
      (fun _ after => engine.StoresWithin after.2 ∧
        after.2.arena.liveClauses.length ≤
          engine.arena.liveClauses.length + engine.settings.growth.toNat ∧
        (after.2.trail.eliminated = engine.trail.eliminated →
          after.2.arena.liveClauses.length ≤ engine.arena.liveClauses.length))
      fun _ after => engine.StoresWithin after.2) ∧
    (∀ tool : Tool Eliminator, Eliminator.process.Ends (tool, engine)
      (fun status after => engine.StoresWithin after.2 ∧
        (engine.Bounded after.2 ∨ status = .unsat ∧ ∃ pivot middle cause last,
          engine.Bounded middle.2 ∧ Eliminator.eliminate pivot middle = .failed cause last ∧
            after.2.arena = last.2.arena)) fun _ _ => False) ∧
    (∀ tool : Tool BatchEliminator, BatchEliminator.process.Ends (tool, engine)
      (fun _ after => engine.StoresWithin after.2 ∧ engine.Bounded after.2) fun _ _ => False) ∧
    ∀ (tool : Tool BatchEliminator) (queue : List Nat) (removable : Array Bool),
      (BatchEliminator.pass queue removable).Ends (tool, engine)
        (fun _ after => engine.StoresWithin after.2) fun _ after => engine.StoresWithin after.2 :=
  ⟨Eliminator.eliminate_bounded ready.toConsistent, Eliminator.process_bounded ready kept,
    BatchEliminator.process_bounded ready kept,
    fun tool queue removable => BatchEliminator.pass_storesWithin queue removable tool⟩

/-- One variable is eliminated for three clauses more than it had, which the limits allow. -/
theorem Engine.growth_bounded_grown :
    ∃ (engine : Engine) (tool : Tool Eliminator) (touched : List Nat)
      (after : Tool Eliminator × Engine), engine.Ready ∧
      (∀ clause ∈ engine.arena.liveClauses, ∀ literal ∈ clause.literals,
        ¬ engine.trail.Removed literal.var) ∧
      Eliminator.eliminate 1 (tool, engine) = .done touched after ∧
      engine.arena.liveClauses.length = 6 ∧ after.2.arena.liveClauses.length = 9 ∧
      engine.settings.growth = 3 ∧
      after.2.arena.liveClauses.length ≤
        engine.arena.liveClauses.length + engine.settings.growth.toNat := by
  obtain ⟨_, start, made, isOpen, before, limit, touched, after, ended, now⟩ :
      (Simplifier.addClauses [[1, 2], [1, 3], [1, 4, 5], [-1, 6], [-1, 7], [-1, 8, 9]]).Returns
        (.ofVars { growth := 3 } 9) fun _ start => start.engine.unsat = false ∧
          start.engine.arena.liveClauses.length = 6 ∧ start.engine.settings.growth = 3 ∧
          (Eliminator.eliminate 1).Returns ({ own := {}, budget := { limit := 100 } }, start.engine)
            fun _ after => after.2.arena.liveClauses.length = 9 := by
    decide +kernel
  obtain ⟨ready, kept⟩ := Simplifier.ready_of_ofClauses made (by decide) isOpen
  obtain ⟨bounded, _⟩ := growth_bounded ready kept
  have few := ((bounded _ 1).done_of_eq ended).2.1
  exact ⟨start.engine, _, touched, after, ready, kept, ended, before, now, limit, few⟩

/-- A call that finds a contradiction has stored a resolvent by then, though nothing may be added. -/
theorem Engine.grown_of_failed :
    ∃ (engine : Engine) (tool : Tool Eliminator) (after : Tool Eliminator × Engine), engine.Ready ∧
      (∀ clause ∈ engine.arena.liveClauses, ∀ literal ∈ clause.literals,
        ¬ engine.trail.Removed literal.var) ∧
      Eliminator.eliminate 1 (tool, engine) = .failed .emptyClause after ∧
      engine.settings.growth = 0 ∧ after.2.trail.eliminated = engine.trail.eliminated ∧
      engine.arena.liveClauses.length = 5 ∧ after.2.arena.liveClauses.length = 6 := by
  obtain ⟨_, start, made, isOpen, before, limit, answer, after, ended, rfl, declined, now⟩ :
      (Simplifier.addClauses [[1, 2, 3], [1, 4], [1, -4], [-1, 4], [-1, -4]]).Returns (.ofVars {} 4)
        fun _ start => start.engine.unsat = false ∧
          start.engine.arena.liveClauses.length = 5 ∧ start.engine.settings.growth = 0 ∧
          (Eliminator.eliminate 1).attempt.Returns ({ own := {}, budget := { limit := 100 } },
            start.engine) fun answer after => answer = .error .emptyClause ∧
              after.2.trail.eliminated = start.engine.trail.eliminated ∧
              after.2.arena.liveClauses.length = 6 := by
    decide +kernel
  obtain ⟨ready, kept⟩ := Simplifier.ready_of_ofClauses made (by decide) isOpen
  exact ⟨start.engine, _, after, ready, kept, Run.failed_of_attempt ended, limit, declined, before,
    now⟩

end CnfSimplifier
