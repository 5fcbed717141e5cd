import CnfSimplifier.Subsumption
import CnfSimplifier.Proofs.ImplicationGraph
import CnfSimplifier.Proofs.Conclusion

/-!
# Subsumption keeps the formula

A subsumed clause goes because a part of it stays. A strengthened clause is
replaced by a part of it that propagation derives. A hidden literal is false
whenever the rest of its clause is, and a hidden tautology follows from the
binary clauses; it has at least three literals, so that no path of implications
goes with it.
-/
namespace CnfSimplifier

/-! ## The scan -/

namespace Subsumption

variable {first second : List Literal}

/-- What a scan has found out, given the flipped literal at its beginning. -/
theorem scan_spec {flipped : Option Literal} (present : OverVars first) :
    (scan first second flipped = .subsumes → flipped = none ∧ first ⊆ second) ∧
    (∀ literal, scan first second flipped = .strengthens literal →
      (flipped = some literal ∧ first ⊆ second) ∨
      (flipped = none ∧ literal ∈ first ∧ literal.complement ∈ second ∧
        ∀ other ∈ first, other ≠ literal → other ∈ second)) := by
  fun_induction scan first second flipped with
  | case1 => simp
  | case2 => simp
  | case3 => simp
  | case4 l first k second flipped before ih =>
    obtain ⟨subsumes, strengthens⟩ := ih present
    refine ⟨fun found => ?_, fun literal found => ?_⟩
    · obtain ⟨none, part⟩ := subsumes found
      exact ⟨none, fun other member => List.mem_cons_of_mem _ (part member)⟩
    · rcases strengthens literal found with ⟨same, part⟩ | ⟨none, inside, flippedIn, part⟩
      · exact .inl ⟨same, fun other member => List.mem_cons_of_mem _ (part member)⟩
      · exact .inr ⟨none, inside, List.mem_cons_of_mem _ flippedIn,
          fun other member different => List.mem_cons_of_mem _ (part other member different)⟩
  | case5 => simp
  | case6 l first second flipped _ _ ih =>
    obtain ⟨subsumes, strengthens⟩ := ih fun other member => present other (.tail _ member)
    refine ⟨fun found => ?_, fun literal found => ?_⟩
    · obtain ⟨none, part⟩ := subsumes found
      exact ⟨none, List.cons_subset_cons _ part⟩
    · rcases strengthens literal found with ⟨same, part⟩ | ⟨none, inside, flippedIn, part⟩
      · exact .inl ⟨same, List.cons_subset_cons _ part⟩
      · refine .inr ⟨none, List.mem_cons_of_mem _ inside, List.mem_cons_of_mem _ flippedIn, ?_⟩
        intro other member different
        rcases List.mem_cons.1 member with rfl | later
        · exact List.mem_cons_self
        · exact List.mem_cons_of_mem _ (part other later different)
  | case7 l first k second notBefore notAfter different ih =>
    obtain ⟨subsumes, strengthens⟩ := ih fun other member => present other (.tail _ member)
    have opposite : k = l.complement := by
      have sameVar : k.var = l.var := by omega
      rcases Literal.eq_or_eq_complement (present l List.mem_cons_self) sameVar with same | opposite
      · exact absurd same different
      · exact opposite
    refine ⟨fun found => ?_, fun literal found => ?_⟩
    · exact absurd (subsumes found).1 (by simp)
    · rcases strengthens literal found with ⟨same, part⟩ | ⟨impossible, _⟩
      · have isFlipped : l = literal := Option.some.inj same
        subst isFlipped
        refine .inr ⟨rfl, List.mem_cons_self, by rw [opposite]; exact List.mem_cons_self, ?_⟩
        intro other member distinct
        rcases List.mem_cons.1 member with isFirst | later
        · exact absurd isFirst distinct
        · exact List.mem_cons_of_mem _ (part later)
      · cases impossible
  | case8 => simp

theorem subset_of_check (present : OverVars first) (found : check first second = .subsumes) :
    first ⊆ second := by
  unfold check at found
  split at found
  · cases found
  · exact ((scan_spec present).1 found).2

/-- If a literal is strengthened away, the rest is contained. -/
theorem resolvable_of_check {literal : Literal} (present : OverVars first)
    (found : check first second = .strengthens literal) :
    literal ∈ first ∧ literal.complement ∈ second ∧
      ∀ other ∈ first, other ≠ literal → other ∈ second := by
  unfold check at found
  split at found
  · cases found
  · rcases (scan_spec present).2 literal found with ⟨impossible, _⟩ | ⟨_, parts⟩
    · cases impossible
    · exact parts

end Subsumption

/-! ## Clauses that stay where they are -/

namespace Engine

variable {scope : Scope} {engine after : Engine} {handle : Handle} {literals : List Literal}

/-- A handle has a live clause with the given literals. -/
def HasLive (engine : Engine) (handle : Handle) (literals : List Literal) : Prop :=
  ∃ clause, engine.arena.live? handle = some clause ∧ clause.literals = literals

theorem HasLive.of_keepsOthers {other : Handle} (has : engine.HasLive handle literals)
    (keeps : KeepsOthers engine other after) (different : handle ≠ other) :
    after.HasLive handle literals := by
  obtain ⟨clause, live, same⟩ := has
  obtain ⟨found, alive⟩ := Arena.live?_eq_some.1 live
  exact ⟨clause, Arena.live?_eq_some.2 ⟨by rw [keeps handle different, found], alive⟩, same⟩

theorem HasLive.of_sameClauses (has : engine.HasLive handle literals)
    (same : engine.arena.SameClauses after.arena) : after.HasLive handle literals := by
  obtain ⟨clause, live, rfl⟩ := has
  obtain ⟨copy, liveCopy, sameLiterals, _⟩ := same.live?_back live
  exact ⟨copy, liveCopy, sameLiterals⟩

/-- A clause that agrees with another one but for one complementary literal can do
without it. -/
theorem rup_of_resolvable [Realm] (sound : engine.Sound) {first second : List Literal} {literal : Literal}
    (inFirst : first ∈ engine.arena.contents) (inSecond : second ∈ engine.arena.contents)
    (member : literal ∈ first)
    (others : ∀ other ∈ first, other ≠ literal → other ∈ second) :
    Rup engine.picture.formula (second.erase literal.complement) := by
  have admits := sound.wellFormed.admits first inFirst
  have present := (admits.present literal member).1
  -- The first clause leaves its literal only, and the second clause none.
  have derived : Propagates engine.picture.formula
      (negations (second.erase literal.complement)) literal := by
    refine .unit (Picture.mem_formula_of_clause inFirst) member fun other inside different => ?_
    have distinct : other ≠ literal.complement := by
      rintro rfl
      exact admits.proper literal member inside
    exact .assumption (mem_negations
      ((List.mem_erase_of_ne distinct).2 (others other inside different)))
  refine ⟨second, Picture.mem_formula_of_clause inSecond, fun other inside => ?_⟩
  by_cases same : other = literal.complement
  · rw [same, Literal.complement_complement present]
    exact derived
  · exact .assumption (mem_negations ((List.mem_erase_of_ne same).2 inside))

/-- A clause is part of another one, and irredundant if that one is. -/
structure Subsumes (engine : Engine) (small large : Handle) : Prop where
  different : small ≠ large
  clauses : ∃ smaller larger, engine.arena.live? small = some smaller ∧
    engine.arena.live? large = some larger ∧ smaller.literals ⊆ larger.literals ∧
    (larger.isRedundant = false → smaller.isRedundant = false)

/-- A clause goes of which another clause is a part. -/
theorem works_removeSubsumed [Realm] {small large : Handle} (subsumes : engine.Subsumes small large) :
    Works scope (removeClause large) engine fun _ after => KeepsOthers engine large after := by
  obtain ⟨different, smaller, larger, liveSmall, liveLarge, part, stays⟩ := subsumes
  refine (works_removeClause liveLarge (.inr ⟨small, smaller, different, liveSmall, part⟩)
    fun _ => .inr ⟨small, smaller, different, liveSmall, part, stays⟩).imp ?_
  exact fun _ after removes => removes.keepsOthers liveLarge

/-- The part was made irredundant. -/
theorem subsumes_of_promoted {small large : Handle} {smaller larger copy : Clause}
    (different : small ≠ large) (liveLarge : engine.arena.live? large = some larger)
    (part : smaller.literals ⊆ larger.literals) (same : engine.arena.SameClauses after.arena)
    (live : after.arena.live? small = some copy) (literals : copy.literals = smaller.literals)
    (irredundant : copy.isRedundant = false) : after.Subsumes small large := by
  obtain ⟨larger', liveAfter, sameLarger, _⟩ := same.live?_back liveLarge
  refine ⟨different, copy, larger', live, liveAfter, ?_, fun _ => irredundant⟩
  rw [literals, sameLarger]
  exact part

end Engine

/-! ## The subsumer at work -/

namespace Subsumer

variable [Realm] {scope : Scope} {state : Tool Subsumer × Engine} {handle : Handle}
  {graph : Option Implications}

/-- The graph that a subsumer has. -/
def Uses (graph : Option Implications) (state : Tool Subsumer × Engine) : Prop :=
  state.1.own.graph = graph

/-- An operation of the engine leaves the graph. -/
theorem works_lift {α : Type} {body : Run Engine α} {post : α → Engine → Prop}
    (uses : Uses graph state) (works : Works scope body state.2 post) :
    Works scope (liftM body : Work Subsumer α) state fun value after =>
      Uses graph after ∧ post value after.2 := by
  refine works.lift.imp ?_
  rintro value after ⟨tool, holds⟩
  refine ⟨?_, holds⟩
  unfold Uses
  rw [tool]
  exact uses

theorem works_spend {steps : Nat} (uses : Uses graph state) :
    Works scope (Work.spend steps) state fun _ after =>
      Uses graph after ∧ after.2 = state.2 := by
  refine Work.works_spend.imp ?_
  rintro _ after ⟨same, own⟩
  refine ⟨?_, same⟩
  unfold Uses
  rw [own]
  exact uses

/-- Marking a clause works. -/
theorem works_mark {change : ClauseFlags → ClauseFlags} (uses : Uses graph state)
    (dead : ∀ flags, (change flags).dead = flags.dead)
    (redundant : ∀ flags, (change flags).redundant = flags.redundant) :
    Works scope (liftM (Engine.markClause handle change) : Work Subsumer Unit) state
      fun _ after => Uses graph after ∧ state.2.Remarks after.2 :=
  works_lift uses (Engine.works_markClause dead redundant)

/-- Queueing a clause changes marks only. -/
theorem works_enqueue (uses : Uses graph state) : Works scope (enqueue handle) state fun _ after =>
    Uses graph after ∧ state.2.Remarks after.2 := by
  unfold enqueue
  refine .look Engine.looks_look.lift fun found _ => ?_
  cases found with
  | none => exact .pure ⟨uses, .refl⟩
  | some clause =>
    dsimp only
    split
    · exact .pure ⟨uses, .refl⟩
    · refine .bind (works_mark uses (fun _ => rfl) fun _ => rfl) fun _ _ _ ⟨uses, same⟩ => ?_
      exact .of_done rfl rfl ⟨uses, same⟩

/-! ## Trying a clause on others -/

/-- Clauses of one list are subsumed or strengthened. -/
theorem works_backwardOn {literals : List Literal} (others : List Handle)
    (uses : Uses graph state) (has : state.2.HasLive handle literals) :
    Works scope (backwardOn handle literals others) state fun _ after => Uses graph after := by
  induction others generalizing state with
  | nil => exact .pure uses
  | cons other rest ih =>
    refine .of_sound fun (sound : state.2.Sound) => ?_
    unfold backwardOn
    split
    next => exact ih uses has
    next different =>
    refine .look Engine.looks_look.lift fun found asked => ?_
    cases found with
    | none => exact ih uses has
    | some clause =>
    dsimp only
    split
    next => exact ih uses has
    next =>
    refine .bind (works_spend uses) fun goOn ⟨tool, engine⟩ _ ⟨uses, same⟩ => ?_
    dsimp only at same
    subst same
    have live : state.2.arena.live? other = some clause := asked.symm
    obtain ⟨own, liveOwn, rfl⟩ := id has
    have inOwn := Arena.contents_of_live liveOwn
    have present : OverVars own.literals := fun l member =>
      ((sound.wellFormed.admits _ inOwn).present l member).1
    split
    swap
    · exact .pure uses
    split
    next subsumes =>
      have part := Subsumption.subset_of_check present subsumes
      -- The larger clause goes, whatever became of the mark of the smaller one.
      have removed : ∀ before : Tool Subsumer × Engine, Uses graph before →
          before.2.Subsumes handle other → before.2.HasLive handle own.literals →
          Works scope (do
            Engine.removeClause other
            Engine.count fun tally => { tally with subsumed := tally.subsumed + 1 }
            backwardOn handle own.literals rest : Work Subsumer Unit) before
            fun _ last => Uses graph last := by
        intro before uses subsumes has
        refine .bind (works_lift uses (Engine.works_removeSubsumed subsumes))
          fun _ middle _ ⟨uses, keeps⟩ => ?_
        have has := has.of_keepsOthers keeps (Ne.symm different)
        refine .bind (works_lift uses (Engine.works_count _)) fun _ after _ ⟨uses, counted⟩ => ?_
        exact ih uses (by rw [counted]; exact has)
      split
      next redundant =>
        refine removed _ uses ⟨Ne.symm different, own, clause, liveOwn, live, part, ?_⟩ has
        exact fun irredundant => absurd redundant (by simp [irredundant])
      next =>
        refine .bind (works_lift uses (Engine.works_makeIrredundant liveOwn))
          fun _ middle _ ⟨uses, same, _, copy, liveCopy, literals, irredundant⟩ => ?_
        exact removed _ uses (Engine.subsumes_of_promoted (Ne.symm different) live part same liveCopy
          literals irredundant) (has.of_sameClauses same)
    next literal strengthens =>
      obtain ⟨member, flipped, agree⟩ := Subsumption.resolvable_of_check present strengthens
      have follows :=
        Engine.rup_of_resolvable sound inOwn (Arena.contents_of_live live) member agree
      refine .bind (works_lift uses (Engine.works_strengthen live flipped follows))
        fun _ middle _ ⟨uses, strengthens⟩ => ?_
      have has := has.of_keepsOthers strengthens.others (Ne.symm different)
      refine .bind (works_enqueue uses) fun _ after _ ⟨uses, same⟩ => ?_
      exact ih uses (has.of_sameClauses same.clauses)
    next => exact ih uses has

/-- A clause subsumes and strengthens others. -/
theorem works_backward (uses : Uses graph state) {literals : List Literal}
    (has : state.2.HasLive handle literals) :
    Works scope (backward handle) state fun _ after => Uses graph after := by
  unfold backward
  refine .look Engine.looks_clause.lift fun clause found => ?_
  refine .look .read fun counts _ => ?_
  split
  next => exact .pure uses
  next literal _ _ =>
    refine .look Engine.looks_occurrences.lift fun same _ => ?_
    refine .look Engine.looks_occurrences.lift fun opposite _ => ?_
    have isOwn : state.2.HasLive handle clause.literals := by
      obtain ⟨own, live, _⟩ := has
      obtain ⟨foundOwn, alive⟩ := Arena.live?_eq_some.1 live
      refine ⟨clause, Arena.live?_eq_some.2 ⟨found, ?_⟩, rfl⟩
      rw [foundOwn, Option.some.injEq] at found
      exact found ▸ alive
    exact works_backwardOn _ uses isOwn

/-! ## Checking a clause against others -/

/-- Clauses of one list subsume or strengthen a clause. -/
theorem works_forwardAgainst (size : Nat) (others : List Handle) (uses : Uses graph state) :
    Works scope (forwardAgainst handle size others) state fun _ after => Uses graph after := by
  induction others generalizing state with
  | nil => exact .pure uses
  | cons other rest ih =>
    refine .of_sound fun (sound : state.2.Sound) => ?_
    unfold forwardAgainst
    split
    next => exact ih uses
    next different =>
    refine .look Engine.looks_look.lift fun found asked => ?_
    cases found with
    | none => exact ih uses
    | some subsumer =>
    dsimp only
    split
    next => exact ih uses
    next =>
    refine .bind (works_spend uses) fun goOn ⟨tool, engine⟩ _ ⟨uses, same⟩ => ?_
    dsimp only at same
    subst same
    split
    swap
    · exact .pure uses
    refine .look Engine.looks_clause.lift fun clause found => ?_
    split
    next => exact .pure uses
    next alive =>
    have live := Arena.live?_of_alive found alive
    have liveOther : state.2.arena.live? other = some subsumer := asked.symm
    have inOther := Arena.contents_of_live liveOther
    have present : OverVars subsumer.literals := fun l member =>
      ((sound.wellFormed.admits _ inOther).present l member).1
    split
    next subsumes =>
      have part := Subsumption.subset_of_check present subsumes
      have removed : ∀ before : Tool Subsumer × Engine, Uses graph before →
          before.2.Subsumes other handle → Works scope (do
            Engine.removeClause handle
            Engine.count fun tally => { tally with subsumed := tally.subsumed + 1 }
            return Look.finished : Work Subsumer Look) before fun _ last => Uses graph last := by
        intro before uses subsumes
        refine .bind (works_lift uses (Engine.works_removeSubsumed subsumes))
          fun _ middle _ ⟨uses, _⟩ => ?_
        exact .bind (works_lift uses (Engine.works_count _)) fun _ after _ ⟨uses, _⟩ => .pure uses
      split
      next redundant =>
        refine removed _ uses ⟨different, subsumer, clause, liveOther, live, part, ?_⟩
        exact fun irredundant => absurd redundant (by simp [irredundant])
      next =>
        refine .bind (works_lift uses (Engine.works_makeIrredundant liveOther))
          fun _ middle _ ⟨uses, same, _, copy, liveCopy, literals, irredundant⟩ => ?_
        exact removed _ uses (Engine.subsumes_of_promoted different live part same liveCopy literals
          irredundant)
    next literal strengthens =>
      obtain ⟨member, flipped, agree⟩ := Subsumption.resolvable_of_check present strengthens
      have follows :=
        Engine.rup_of_resolvable sound inOther (Arena.contents_of_live live) member agree
      refine .bind (works_lift uses (Engine.works_strengthen live flipped follows))
        fun _ middle _ ⟨uses, _⟩ => ?_
      refine .bind (works_mark uses (fun flags => ?_) fun flags => ?_)
        fun _ after _ ⟨uses, _⟩ => .pure uses
      · split <;> rfl
      · split <;> rfl
    next => exact ih uses

/-- Looking through the lists of the literals works. -/
theorem works_forwardThrough (size : Nat) (literals : List Literal) (uses : Uses graph state) :
    Works scope (forwardThrough handle size literals) state fun _ after => Uses graph after := by
  induction literals generalizing state with
  | nil => exact .pure uses
  | cons literal rest ih =>
    unfold forwardThrough
    refine .look Engine.looks_occurrences.lift fun handles _ => ?_
    refine .bind (works_forwardAgainst size handles uses) fun found after _ uses => ?_
    split
    next => exact ih uses
    next => exact .pure uses

/-- Forward subsumption works. -/
theorem works_forwardLoop (fuel : Nat) (uses : Uses graph state) :
    Works scope (forwardLoop handle fuel) state fun _ after => Uses graph after := by
  induction fuel generalizing state with
  | zero => exact .stop
  | succ fuel ih =>
    unfold forwardLoop
    refine .look Engine.looks_clause.lift fun clause _ => ?_
    split
    next => exact .pure uses
    next =>
      refine .bind (works_forwardThrough _ _ uses) fun found after _ uses => ?_
      split
      next => exact ih uses
      next => exact .pure uses

theorem works_forward (uses : Uses graph state) :
    Works scope (forward handle) state fun _ after => Uses graph after := by
  unfold forward
  exact .look Engine.looks_clause.lift fun clause _ => works_forwardLoop _ uses

end Subsumer

/-! ## Hidden tautologies and literals -/

namespace Subsumer

variable {graph : Implications}

/-- If one of the targets is implied there is such a one. -/
theorem implied_of_anyImplied? {source : Literal} {targets : List Literal}
    (found : hasHiddenTautology?.anyImplied? graph source targets = some true) :
    ∃ target ∈ targets, graph.implies? source target = some true := by
  induction targets with
  | nil => simp [hasHiddenTautology?.anyImplied?] at found
  | cons target rest ih =>
    simp only [hasHiddenTautology?.anyImplied?, Option.bind_eq_bind, Option.bind_eq_some_iff,
      Option.pure_def] at found
    obtain ⟨answer, asked, decided⟩ := found
    cases answer with
    | true => exact ⟨target, List.mem_cons_self, asked⟩
    | false =>
      obtain ⟨other, member, implied⟩ := ih decided
      exact ⟨other, List.mem_cons_of_mem _ member, implied⟩

/-- A hidden tautology shows two literals. -/
theorem implied_of_hasHiddenTautology? {literals : List Literal}
    (found : hasHiddenTautology? graph literals = some true) :
    ∃ source ∈ literals, ∃ target ∈ literals,
      graph.implies? source.complement target = some true := by
  induction literals with
  | nil => simp [hasHiddenTautology?] at found
  | cons literal rest ih =>
    simp only [hasHiddenTautology?, Option.bind_eq_bind, Option.bind_eq_some_iff,
      Option.pure_def] at found
    obtain ⟨answer, asked, decided⟩ := found
    cases answer with
    | true =>
      obtain ⟨target, member, implied⟩ := implied_of_anyImplied? asked
      exact ⟨literal, List.mem_cons_self, target, List.mem_cons_of_mem _ member, implied⟩
    | false =>
      obtain ⟨source, member, target, inside, implied⟩ := ih decided
      exact ⟨source, List.mem_cons_of_mem _ member, target, List.mem_cons_of_mem _ inside, implied⟩

/-- A hidden literal implies another one. -/
theorem implied_of_hiddenLiteral? {literals candidates : List Literal} {hidden : Literal}
    (found : hiddenLiteral? graph literals candidates = some (some hidden)) :
    hidden ∈ candidates ∧ ∃ target ∈ literals, target ≠ hidden ∧
      graph.implies? hidden target = some true := by
  induction candidates with
  | nil => simp [hiddenLiteral?] at found
  | cons literal rest ih =>
    simp only [hiddenLiteral?, Option.bind_eq_bind, Option.bind_eq_some_iff,
      Option.pure_def] at found
    obtain ⟨answer, asked, decided⟩ := found
    cases answer with
    | true =>
      obtain ⟨target, member, implied⟩ := implied_of_anyImplied? asked
      have isHidden : literal = hidden := by simpa using decided
      subst isHidden
      obtain ⟨inside, different⟩ := List.mem_filter.1 member
      exact ⟨List.mem_cons_self, target, inside, by simpa using different, implied⟩
    | false =>
      obtain ⟨member, rest⟩ := ih decided
      exact ⟨List.mem_cons_of_mem _ member, rest⟩

end Subsumer

namespace Engine

variable [Realm] {engine after : Engine} {handle : Handle} {clause : Clause}

omit [Realm] in
/-- Nothing smaller than two literals goes with a clause of three. -/
theorem Removes.pairs (removes : Removes engine handle clause after)
    (live : engine.arena.live? handle = some clause) (nodup : clause.literals.Nodup)
    (long : 3 ≤ clause.literals.length) (a b : Literal)
    (known : ∃ part ∈ engine.core, part ⊆ [a, b]) : ∃ part ∈ after.core, part ⊆ [a, b] := by
  obtain ⟨part, member, small⟩ := known
  rcases removes.core_cases live member with kept | ⟨_, rfl⟩
  · exact ⟨part, kept, small⟩
  · have short : clause.literals.length ≤ [a, b].length := (nodup.subperm small).length_le
    exact absurd (le_trans long short) (by simp)

/-- A clause of at least three literals goes that a path of implications makes true. -/
theorem works_removeHidden {graph : Implications} {source target : Literal}
    (live : engine.arena.live? handle = some clause) (long : 3 ≤ clause.literals.length)
    (inClause : source ∈ clause.literals) (inside : target ∈ clause.literals)
    (reflects : graph.Reflects engine.picture) (rests : graph.Rests engine)
    (implied : graph.implies? source.complement target = some true) :
    Works .equivalence (removeClause handle) engine fun _ _ => True := by
  refine .of_ends fun sound => ?_
  refine (removeClause_ends sound.toInStep live).imp (fun _ after => ?_) fun _ _ no => no.elim
  rintro ⟨removes, dirty, log⟩
  have admits := sound.wellFormed.admits _ (Arena.contents_of_live live)
  have present := (admits.present source inClause).1
  have presentSource : 0 < source.complement.var := by rwa [Literal.var_complement present]
  have presentTarget := (admits.present target inside).1
  have reaches := reflects.reaches_of_implies? presentSource presentTarget implied
  have stays := reaches.without_long sound.wellFormed removes.contents long
  -- If the source is false, the target is true.
  have holdsClause : ∀ values, (source.complement.Holds values → target.Holds values) →
      ClauseHolds values clause.literals := by
    intro values path
    by_cases satisfied : source.Holds values
    · exact ⟨source, inClause, satisfied⟩
    · exact ⟨target, inside, path ((Literal.holds_complement present).2 satisfied)⟩
  have steps : Steps .equivalence engine.picture after.picture := by
    rw [removes.picture log]
    have dropped : Step .equivalence engine.picture { engine.picture with
        clauses := after.arena.contents, pending := clause.literals ::ₘ 0 } :=
      .dropImplied clause.literals after.arena.contents (by decide) long removes.contents
        fun values holds => holdsClause values (stays.holds holds)
    exact .tail (.tail (.single dropped) (.report clause.literals 0 rfl))
      (.recast _ (removes.irredundant live))
  have pairs := removes.pairs live admits.nodup long
  refine ⟨.of_steps (removes.goes dirty fun _ => ⟨removes.trail ▸ .refl _, removes.records, pairs,
    fun supported values holds => ?_⟩) steps removes.applied, trivial⟩
  have restsAfter : graph.Rests after := fun a b edge => pairs _ _ (rests a b edge)
  refine Steps.holds steps sound.wellFormed (supported values fun literals member => ?_)
  rcases removes.core_cases live member with kept | ⟨_, rfl⟩
  · exact holds literals kept
  · exact holdsClause values (restsAfter.holds_of_implies? reflects holds presentSource presentTarget
      implied)

/-- A literal that implies another one of its clause is false when the rest is. -/
theorem rup_of_hidden {hidden target : Literal}
    (live : engine.arena.live? handle = some clause) (inside : target ∈ clause.literals)
    (different : target ≠ hidden) (reaches : engine.picture.Reaches hidden target) :
    Rup engine.picture.formula (clause.literals.erase hidden) := by
  have assumed : Propagates engine.picture.formula
      (negations (clause.literals.erase hidden)) target.complement :=
    .assumption (mem_negations ((List.mem_erase_of_ne different).2 inside))
  rcases reaches.contrapose.propagates assumed with derived | conflict
  · refine ⟨clause.literals, .inl (Arena.contents_of_live live), fun other member => ?_⟩
    by_cases same : other = hidden
    · exact same ▸ derived
    · exact .assumption (mem_negations ((List.mem_erase_of_ne same).2 member))
  · exact conflict

end Engine

namespace Subsumer

variable [Realm] {state after : Tool Subsumer × Engine} {handle : Handle} {graph : Option Implications}
  {literals : List Literal}

/-- The graph of a subsumer, if it has one, is right. -/
structure Ready (graph : Option Implications) (state : Tool Subsumer × Engine) : Prop where
  uses : Uses graph state
  reflects : ∀ known, graph = some known → known.Reflects state.2.picture
  rests : ∀ known, graph = some known → known.Rests state.2

/-- Nothing that subsumption does makes the graph wrong. -/
theorem Ready.of_leads (ready : Ready graph state) (sound : state.2.Sound)
    (leads : state.2.Leads .equivalence after.2) (uses : Uses graph after) : Ready graph after where
  uses := uses
  reflects known isKnown :=
    (ready.reflects known isKnown).of_steps (by decide) sound.wellFormed leads.steps
  rests known isKnown := (ready.rests known isKnown).of_retains (leads.retains (by decide))

/-- Removing hidden literals one by one works. -/
theorem works_hiddenLoop {known : Implications} (fuel : Nat) (ready : Ready (some known) state)
    (has : state.2.HasLive handle literals) :
    Works .equivalence (hiddenLoop known handle fuel) state fun _ after =>
      Uses (some known) after := by
  induction fuel generalizing state literals with
  | zero => exact .stop
  | succ fuel ih =>
    refine .of_sound fun (sound : state.2.Sound) => ?_
    unfold hiddenLoop
    refine .look Engine.looks_clause.lift fun clause found => ?_
    obtain ⟨own, live, rfl⟩ := has
    have isOwn : own = clause :=
      Option.some.inj ((Arena.live?_eq_some.1 live).1.symm.trans found)
    subst isOwn
    have reflects := ready.reflects known rfl
    have present : ∀ literal ∈ own.literals, 0 < literal.var := fun literal member =>
      ((sound.wellFormed.admits _ (Arena.contents_of_live live)).present literal member).1
    split
    next => exact .pure ready.uses
    next long =>
    have three : 3 ≤ own.literals.length := Nat.le_of_not_lt long
    refine .bind (works_spend ready.uses) fun goOn ⟨tool, engine⟩ _ ⟨uses, same⟩ => ?_
    dsimp only at same
    subst same
    split
    swap
    · exact .pure uses
    refine .look .access fun isTautology asked => ?_
    split
    next isTrue =>
      rw [isTrue] at asked
      obtain ⟨source, member, target, inside, implied⟩ := implied_of_hasHiddenTautology? asked
      refine .bind (works_lift uses (Engine.works_removeHidden live three member inside reflects
        (ready.rests known rfl) implied)) fun _ middle _ ⟨uses, _⟩ => ?_
      exact .bind (works_lift uses (Engine.works_count _)) fun _ after _ ⟨uses, _⟩ => .pure uses
    next =>
      refine .look .access fun hidden asked => ?_
      cases hidden with
      | none => exact .pure uses
      | some literal =>
        obtain ⟨member, target, inside, different, implied⟩ := implied_of_hiddenLiteral? asked
        have reaches := reflects.reaches_of_implies? (present literal member)
          (present target inside) implied
        have follows := Engine.rup_of_hidden live inside different reaches
        refine .bind (works_lift uses (Engine.works_strengthen live member follows))
          fun _ middle shortened ⟨uses, strengthens⟩ => ?_
        obtain ⟨shorter, liveShorter, _⟩ := strengthens.long three
        refine .bind (works_lift uses (Engine.works_count _))
          fun _ after counted ⟨uses, same⟩ => ?_
        refine ih (ready.of_leads sound (shortened.trans counted) uses) ⟨shorter, ?_, rfl⟩
        rw [same]
        exact liveShorter

/-- The treatment of hidden literals works. -/
theorem works_hidden (ready : Ready graph state) (has : state.2.HasLive handle literals) :
    Works .equivalence (hidden handle) state fun _ after => Uses graph after := by
  unfold hidden
  refine .step rfl rfl ?_
  have isKnown : state.1.own.graph = graph := ready.uses
  split
  next => exact .pure ready.uses
  next known found =>
    have isSome : graph = some known := isKnown.symm.trans found
    subst isSome
    exact .look Engine.looks_clause.lift fun clause _ => works_hiddenLoop _ ready has

theorem works_propagate {scope : Scope} (uses : Uses graph state) :
    Works scope (liftM Engine.propagateUnits : Work Subsumer Unit) state fun _ after =>
      Uses graph after :=
  (works_lift uses Engine.works_propagateUnits).imp fun _ _ ⟨uses, _⟩ => uses

/-- Everything tried with one clause works. -/
theorem works_simplifyClause (ready : Ready graph state) (has : state.2.HasLive handle literals) :
    Works .equivalence (simplifyClause handle) state fun _ after => Uses graph after := by
  unfold simplifyClause
  refine .bind (works_hidden ready has) fun removed _ _ uses => ?_
  split
  next => exact works_propagate uses
  next =>
    refine .bind (works_forward uses) fun _ _ _ uses => ?_
    refine .look Engine.looks_clause.lift fun clause found => ?_
    split
    next => exact works_propagate uses
    next alive =>
      have live := Arena.live?_of_alive found alive
      refine .bind (works_backward uses ⟨clause, live, rfl⟩) fun _ _ _ uses => ?_
      refine .bind (works_mark uses (fun _ => rfl) fun _ => rfl) fun _ _ _ ⟨uses, _⟩ => ?_
      exact works_propagate uses

/-! ## Working through the queue -/

/-- Working off the queue works. -/
theorem works_drainLoop (fuel : Nat) (ready : Ready graph state) :
    Works .equivalence (drainLoop fuel) state fun _ after => Uses graph after := by
  induction fuel generalizing state with
  | zero => exact .stop
  | succ fuel ih =>
    refine .of_sound fun (sound : state.2.Sound) => ?_
    unfold drainLoop
    refine .step rfl rfl ?_
    split
    next => exact .pure ready.uses
    next handle rest _ =>
    refine .step rfl rfl ?_
    have ready : Ready graph ({ state.1 with own := { state.1.own with queue := rest } }, state.2) :=
      ⟨ready.uses, ready.reflects, ready.rests⟩
    refine .look Engine.looks_look.lift fun found asked => ?_
    cases found with
    | none => exact ih ready
    | some clause =>
    refine .bind (works_mark ready.uses (fun _ => rfl) fun _ => rfl)
      fun _ marked leads ⟨uses, same⟩ => ?_
    have readyMarked := ready.of_leads sound leads uses
    split
    next => exact ih readyMarked
    next alive =>
    have has : marked.2.HasLive handle clause.literals := by
      refine Engine.HasLive.of_sameClauses ⟨clause, ?_, rfl⟩ same.clauses
      exact Arena.live?_eq_some.2 ⟨asked.symm, by simpa using alive⟩
    refine .bind (works_spend uses) fun goOn ⟨tool, engine⟩ _ ⟨uses, unchanged⟩ => ?_
    dsimp only at unchanged
    subst unchanged
    have readySpent : Ready graph (tool, marked.2) := ⟨uses, readyMarked.reflects, readyMarked.rests⟩
    split
    swap
    · exact .pure uses
    refine .look Engine.looks_look.lift fun limit _ => ?_
    split
    next =>
      refine .bind (works_mark uses (fun _ => rfl) fun _ => rfl) fun _ _ settled ⟨uses, _⟩ => ?_
      exact ih (readySpent.of_leads (leads.sound sound) settled uses)
    next =>
      refine .bind (works_simplifyClause readySpent has) fun _ _ simplified uses => ?_
      exact ih (readySpent.of_leads (leads.sound sound) simplified uses)

/-- Working through the queue works. -/
theorem works_drain (ready : Ready graph state) :
    Works .equivalence drain state fun _ after => Uses graph after := by
  unfold drain
  refine .step rfl rfl (.look Engine.looks_look.lift fun literals _ => ?_)
  refine .bind (works_drainLoop _ ready) fun _ _ _ uses => ?_
  refine .step rfl rfl ?_
  refine .bind (Works.forM uses fun handle _ state uses => ?_) fun _ _ _ uses => ?_
  · unfold unqueue
    exact .imp (works_mark uses (fun _ => rfl) fun _ => rfl) fun _ _ ⟨uses, _⟩ => uses
  · exact .of_done rfl rfl uses

theorem works_gather {scope : Scope} (uses : Uses graph state) :
    Works scope gather state fun _ after => Uses graph after := by
  unfold gather
  refine .look Engine.looks_look.lift fun handles _ => ?_
  refine .forM uses fun handle _ state uses => ?_
  exact (works_enqueue uses).imp fun _ _ ⟨uses, _⟩ => uses

/-- Working it off until nothing is new works. -/
theorem works_exhaust (fuel : Nat) (ready : Ready graph state) :
    Works .equivalence (exhaust fuel) state fun _ after => Uses graph after := by
  induction fuel generalizing state with
  | zero => exact .stop
  | succ fuel ih =>
    refine .of_sound fun (sound : state.2.Sound) => ?_
    unfold exhaust
    refine .bind (works_gather ready.uses) fun _ gathered leads uses => ?_
    have ready := ready.of_leads sound leads uses
    refine .step rfl rfl ?_
    split
    next => exact .pure uses
    next =>
      refine .step rfl rfl ?_
      split
      next => exact .pure uses
      next =>
        refine .bind (works_drain ready) fun _ drained further uses => ?_
        exact ih (ready.of_leads (leads.sound sound) further uses)

/-- Subsumption keeps the formula. -/
theorem works_run (uses : Uses none state) :
    Works .equivalence run state fun _ _ => True := by
  unfold run
  refine .bind (works_propagate uses) fun _ propagated _ uses => ?_
  have finish : ∀ (graph : Option Implications) (state : Tool Subsumer × Engine), Ready graph state →
      Works .equivalence (do
        let literals ← Engine.look Engine.liveLiterals
        exhaust (literals + 3) : Work Subsumer Unit) state fun _ _ => True := by
    intro graph state ready
    refine .look Engine.looks_look.lift fun literals _ => ?_
    exact (works_exhaust _ ready).imp fun _ _ _ => trivial
  refine .look Engine.looks_look.lift fun binary _ => ?_
  split
  next => exact finish none _ ⟨uses, nofun, nofun⟩
  next =>
    refine .bind (Works.lift Engine.works_implications)
      fun known after _ ⟨_, _, reflects, rests⟩ => ?_
    refine .step rfl rfl (finish (some known) _ ⟨rfl, ?_, ?_⟩)
    · rintro _ isKnown
      exact Option.some.inj isKnown ▸ reflects
    · rintro _ isKnown
      exact Option.some.inj isKnown ▸ rests

/-- A run of subsumption comes to a conclusion. -/
theorem process_ends (sound : state.2.Sound) :
    process.Ends state (fun status after => state.2.Concludes .equivalence status after.2)
      fun _ _ => False :=
  Work.process_ends sound fun _ => .step rfl rfl (works_run rfl)

end Subsumer

end CnfSimplifier
