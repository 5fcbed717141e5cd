import CnfSimplifier.TwoSat
import CnfSimplifier.Proofs.ImplicationGraph
import CnfSimplifier.Proofs.Conclusion

/-!
# What the solver of binary clauses finds follows

The literals of both layers are closed under implications whenever a new variable
is looked at. So if an assumption leads to a literal whose complement is true
already, this complement was reached from the assumption as well: otherwise the
complement of the assumption would be true by contraposition, and the variable
would not have been open. Hence a failed assumption implies its own complement.

Everything that the complement implies is implied by its own complement, too. So
each permanent literal follows by propagation, on its own and before any of the
others is assigned.
-/
namespace CnfSimplifier

namespace TwoSat

variable {graph : Implications} {layers after : TwoSat} {literal : Literal} {interrupted : Bool}
  {picture : Picture} {trail : Trail} {name : Nat}

/-! ## Tables and lists -/

/-- A table holds the listed literals. -/
def Tracks (table : Array Bool) (items : Array Literal) : Prop :=
  ∀ literal : Literal, table[literal.index]? = some true ↔ literal ∈ items.toList

/-- A pushed literal is marked in the table. -/
theorem Tracks.push {table : Array Bool} {items : Array Literal} (tracks : Tracks table items)
    (inside : literal.index < table.size) :
    Tracks (table.setIfInBounds literal.index true) (items.push literal) := by
  intro other
  rw [Array.toList_push, List.mem_append, List.mem_singleton, ← tracks other,
    Array.getElem?_setIfInBounds]
  by_cases same : other = literal
  · subst same
    simp [inside]
  · have different : literal.index ≠ other.index := fun equal =>
      same (Literal.index_inj.1 equal).symm
    simp [same, different]

theorem tracks_replicate (size : Nat) : Tracks (Array.replicate size false) #[] := by
  intro literal
  rw [Array.getElem?_replicate]
  split <;> simp

/-- Taking all listed literals out empties the table. -/
theorem Tracks.clear {table : Array Bool} {items : Array Literal} (tracks : Tracks table items) :
    Tracks (items.foldl (fun table literal => table.setIfInBounds literal.index false) table)
      #[] := by
  have cleared : ∀ (list : List Literal) (table : Array Bool),
      (∀ literal : Literal, table[literal.index]? = some true → literal ∈ list) →
      ∀ literal : Literal, (list.foldl (fun table literal =>
        table.setIfInBounds literal.index false) table)[literal.index]? ≠ some true := by
    intro list
    induction list with
    | nil => exact fun table listed literal isTrue => absurd (listed literal isTrue) (by simp)
    | cons first rest ih =>
      intro table listed
      refine ih _ fun literal isTrue => ?_
      rw [Array.getElem?_setIfInBounds] at isTrue
      split at isTrue
      next => split at isTrue <;> cases isTrue
      next different =>
        rcases List.mem_cons.1 (listed literal isTrue) with rfl | later
        · exact absurd rfl different
        · exact later
  intro literal
  rw [← Array.foldl_toList]
  refine iff_of_false (cleared items.toList table ?_ literal) (by simp)
  exact fun other isTrue => (tracks other).1 isTrue

/-- The tables of both layers are right. -/
structure Tracked (layers : TwoSat) : Prop where
  permanent : Tracks layers.permanent layers.units
  temporary : Tracks layers.temporary layers.assumed

/-- A literal is true in one of the layers. -/
def Has (layers : TwoSat) (literal : Literal) : Prop :=
  literal ∈ layers.units.toList ∨ literal ∈ layers.assumed.toList

/-- A literal is true if it is in one of the layers. -/
theorem isTrue?_spec (tracked : layers.Tracked) {answer : Bool}
    (asked : layers.isTrue? literal = some answer) : answer = true ↔ layers.Has literal := by
  simp only [isTrue?, Option.bind_eq_bind, Option.bind_eq_some_iff, Option.pure_def] at asked
  obtain ⟨isPermanent, found, decided⟩ := asked
  unfold Has
  rw [← tracked.permanent literal, ← tracked.temporary literal, found]
  cases isPermanent with
  | true =>
    simp only [if_true, Option.some.injEq] at decided
    simp [decided.symm]
  | false =>
    simp only [Bool.false_eq_true, if_false] at decided
    simp [decided]

/-! ## Following implications -/

/-- What a layer needs so that implications can be followed in it: its questions
are answered for both layers, and making a literal true lists it. -/
structure Mode (good : TwoSat → Prop) (layer : TwoSat → Array Literal)
    (isTrue : TwoSat → Literal → Option Bool) (make : Literal → Run TwoSat Unit) : Prop where
  spends : ∀ layers budget, good layers → good { layers with budget := budget } ∧
    layer { layers with budget := budget } = layer layers
  asks : ∀ layers literal answer, good layers → isTrue layers literal = some answer →
    (answer = true ↔ layers.Has literal)
  makes : ∀ layers literal, good layers → (make literal).Ends layers
    (fun _ after => good after ∧ (layer after).toList = (layer layers).toList ++ [literal] ∧
      ∀ other, after.Has other ↔ layers.Has other ∨ other = literal) fun _ _ => False

/-- Suppositions go into the upper layer. -/
theorem mode_suppose (units : Array Literal) :
    Mode (fun layers => layers.Tracked ∧ layers.units = units) TwoSat.assumed isTrue? presume := by
  refine ⟨?_, ?_, ?_⟩
  · rintro layers budget ⟨tracked, same⟩
    exact ⟨⟨⟨tracked.permanent, tracked.temporary⟩, same⟩, rfl⟩
  · rintro layers literal answer ⟨tracked, _⟩ asked
    exact isTrue?_spec tracked asked
  · rintro layers literal ⟨tracked, same⟩
    refine .update fun after changed => ?_
    split at changed
    next inside =>
      rw [Option.some.injEq] at changed
      subst changed
      refine ⟨⟨⟨tracked.permanent, tracked.temporary.push inside⟩, same⟩, by simp, fun other => ?_⟩
      simp [Has, or_assoc]
    next => cases changed

/-- Conclusions go into the lower layer. -/
theorem mode_conclude :
    Mode (fun layers => layers.Tracked ∧ layers.assumed = #[]) TwoSat.units isPermanent?
      establish := by
  refine ⟨?_, ?_, ?_⟩
  · rintro layers budget ⟨tracked, empty⟩
    exact ⟨⟨⟨tracked.permanent, tracked.temporary⟩, empty⟩, rfl⟩
  · rintro layers literal answer ⟨tracked, empty⟩ asked
    unfold Has
    rw [← tracked.permanent literal, empty]
    unfold isPermanent? at asked
    simp [asked]
  · rintro layers literal ⟨tracked, empty⟩
    refine .update fun after changed => ?_
    split at changed
    next inside =>
      rw [Option.some.injEq] at changed
      subst changed
      refine ⟨⟨⟨tracked.permanent.push inside, tracked.temporary⟩, empty⟩, by simp, fun other => ?_⟩
      simp only [Has, Array.toList_push, List.mem_append, List.mem_singleton, empty]
      simp
    next => cases changed

/-- Spending a step changes the budget only. -/
theorem spend_ends {failed : Error → TwoSat → Prop} :
    (modifyGet (spend interrupted) : Run TwoSat Bool).Ends layers
      (fun _ after => ∃ budget, after = { layers with budget := budget }) failed :=
  .of_done rfl ⟨_, rfl⟩

section Following

variable {good : TwoSat → Prop} {layer : TwoSat → Array Literal}
  {isTrue : TwoSat → Literal → Option Bool} {make : Literal → Run TwoSat Unit}
  {start : Literal}

/-- A layer got literals that are reached from a start. -/
def Extends (graph : Implications) (layer : TwoSat → Array Literal) (start : Literal)
    (layers after : TwoSat) : Prop :=
  ∃ new, (layer after).toList = (layer layers).toList ++ new ∧
    (∀ literal ∈ new, Relation.ReflTransGen graph.Edge start literal) ∧
    ∀ literal, after.Has literal ↔ layers.Has literal ∨ literal ∈ new

theorem Extends.trans {last : TwoSat} (first : Extends graph layer start layers after)
    (second : Extends graph layer start after last) : Extends graph layer start layers last := by
  obtain ⟨new, list, reached, has⟩ := first
  obtain ⟨more, listMore, reachedMore, hasMore⟩ := second
  refine ⟨new ++ more, by rw [listMore, list, List.append_assoc], ?_, fun literal => ?_⟩
  · intro literal member
    rcases List.mem_append.1 member with early | late
    · exact reached literal early
    · exact reachedMore literal late
  · rw [hasMore, has, List.mem_append, or_assoc]

theorem Extends.has (extends_ : Extends graph layer start layers after)
    (earlier : layers.Has literal) : after.Has literal := by
  obtain ⟨_, _, _, has⟩ := extends_
  exact (has literal).2 (.inl earlier)

/-- What is known after implications were followed: everything asked for is true,
or something reached is false. -/
def Spreads (graph : Implications) (start : Literal) (wanted : Literal → Prop) (success : Bool)
    (after : TwoSat) : Prop :=
  (success = true → ∀ literal, wanted literal → after.Has literal) ∧
    (success = false → ∃ literal, Relation.ReflTransGen graph.Edge start literal ∧
      after.Has literal.complement)

/-- Spreading a literal makes all that it leads to. -/
theorem spread_ends (mode : Mode good layer isTrue make) (isGood : good layers)
    {literals : List Literal}
    (reached : ∀ literal ∈ literals, Relation.ReflTransGen graph.Edge start literal) :
    (spread interrupted isTrue make literals).Ends layers (fun success after =>
      good after ∧ Extends graph layer start layers after ∧
        Spreads graph start (· ∈ literals) success after) fun _ _ => False := by
  induction literals generalizing layers with
  | nil =>
    exact .pure ⟨isGood, ⟨[], by simp, by simp, by simp⟩, fun _ _ none => by simp at none, nofun⟩
  | cons literal rest ih =>
    have reachedRest := fun other member => reached other (List.mem_cons_of_mem literal member)
    unfold spread
    refine spend_ends.bind ?_
    rintro _ _ ⟨budget, rfl⟩
    obtain ⟨isGood, sameLayer⟩ := mode.spends layers budget isGood
    have spent : Extends graph layer start layers { layers with budget := budget } :=
      ⟨[], by rw [sameLayer, List.append_nil], by simp, fun other => by simp [Has]⟩
    -- The rest is spread once the literal is true.
    have onward : ∀ middle, good middle → Extends graph layer start layers middle →
        middle.Has literal → (spread interrupted isTrue make rest).Ends middle
          (fun success after => good after ∧ Extends graph layer start layers after ∧
            Spreads graph start (· ∈ literal :: rest) success after) fun _ _ => False := by
      intro middle goodMiddle extended has
      refine (ih goodMiddle reachedRest).imp ?_ fun _ _ no => no
      rintro success after ⟨goodAfter, further, all, failed⟩
      refine ⟨goodAfter, extended.trans further, fun isTrue other member => ?_, failed⟩
      rcases List.mem_cons.1 member with rfl | later
      · exact further.has has
      · exact all isTrue other later
    refine Run.Looks.read.bind fun known asked => ?_
    have isKnown := mode.asks _ literal known isGood asked
    split
    next found => exact onward _ isGood spent (isKnown.1 found)
    next =>
      refine Run.Looks.read.bind fun opposite askedOpposite => ?_
      have isOpposite := mode.asks _ literal.complement opposite isGood askedOpposite
      split
      next found =>
        refine .pure ⟨isGood, spent, nofun, fun _ => ⟨literal, ?_, isOpposite.1 found⟩⟩
        exact reached literal List.mem_cons_self
      next =>
        refine (mode.makes _ literal isGood).bind ?_
        rintro _ middle ⟨goodMiddle, list, has⟩
        refine onward middle goodMiddle (spent.trans ⟨[literal], list, ?_, ?_⟩)
          ((has literal).2 (.inr rfl))
        · intro other member
          rw [List.mem_singleton.1 member]
          exact reached literal List.mem_cons_self
        · simpa using has

/-- Following implications to the end closes a layer. -/
theorem follow_ends (mode : Mode good layer isTrue make) (isGood : good layers)
    (start : Literal) {position : Nat} (fuel : Nat)
    (done : ∀ literal ∈ (layer layers).toList.take position,
      ∀ target, graph.Edge literal target → layers.Has target)
    (reached : ∀ literal ∈ (layer layers).toList.drop position,
      Relation.ReflTransGen graph.Edge start literal) :
    (follow graph interrupted layer isTrue make fuel position).Ends layers (fun success after =>
      good after ∧ Extends graph layer start layers after ∧
        (success = true → ∀ literal ∈ (layer after).toList,
          ∀ target, graph.Edge literal target → after.Has target) ∧
        (success = false → ∃ literal, Relation.ReflTransGen graph.Edge start literal ∧
          after.Has literal.complement)) fun _ _ => False := by
  induction fuel generalizing layers position with
  | zero => exact .stop
  | succ fuel ih =>
    have same : Extends graph layer start layers layers := ⟨[], by simp, by simp, by simp⟩
    unfold follow
    refine .step rfl ?_
    split
    next outside =>
      refine .pure ⟨isGood, same, fun _ literal member => ?_, nofun⟩
      have end_ : (layer layers).toList.length ≤ position := by
        rw [Array.length_toList]
        exact Array.getElem?_eq_none_iff.1 outside
      rw [List.take_of_length_le end_] at done
      exact done literal member
    next literal found =>
      have inside : position < (layer layers).toList.length := by
        rw [Array.length_toList]
        exact (Array.getElem?_eq_some_iff.1 found).1
      have isItem : (layer layers).toList[position] = literal := by
        rw [Array.getElem_toList]
        exact (Array.getElem?_eq_some_iff.1 found).2
      have fromStart : Relation.ReflTransGen graph.Edge start literal := by
        apply reached
        rw [List.drop_eq_getElem_cons inside, isItem]
        exact List.mem_cons_self
      refine Run.Looks.access.bind fun successors asked => ?_
      have edges : ∀ target, graph.Edge literal target → target ∈ successors.toList := by
        intro target edge
        obtain ⟨others, askedAgain, member⟩ := Implications.edge_iff_successors.1 edge
        rwa [Option.some.inj (asked.symm.trans askedAgain)]
      refine (spread_ends mode isGood fun target member => fromStart.tail
        (Implications.edge_iff_successors.2 ⟨successors, asked, member⟩)).bind ?_
      rintro success middle ⟨goodMiddle, extended, all, failed⟩
      split
      next isTrue =>
        obtain ⟨new, list, reachedNew, _⟩ := id extended
        refine (ih goodMiddle ?_ ?_).imp ?_ fun _ _ no => no
        · intro other member target edge
          rw [list, List.take_append_of_le_length inside] at member
          rw [← List.take_concat_get' _ _ inside, List.mem_append, List.mem_singleton] at member
          rcases member with early | rfl
          · exact extended.has (done other early target edge)
          · exact all isTrue target (edges target (isItem ▸ edge))
        · intro other member
          rw [list, List.drop_append_of_le_length inside, List.mem_append] at member
          rcases member with early | late
          · refine reached other ?_
            rw [List.drop_eq_getElem_cons inside]
            exact List.mem_cons_of_mem _ early
          · exact reachedNew other late
        · rintro success after ⟨goodAfter, further, rest⟩
          exact ⟨goodAfter, extended.trans further, rest⟩
      next isFalse =>
        refine .pure ⟨goodMiddle, extended, nofun, fun _ => failed ?_⟩
        simpa using isFalse

/-- Something reached from a start is false, by an old literal or by a new one. -/
def Clashes (graph : Implications) (layers : TwoSat) (start : Literal) : Prop :=
  ∃ literal, Relation.ReflTransGen graph.Edge start literal ∧
    (layers.Has literal.complement ∨ Relation.ReflTransGen graph.Edge start literal.complement)

/-- Making a literal true together with everything it implies. -/
theorem pursue_ends (mode : Mode good layer isTrue make) (isGood : good layers)
    (start : Literal) (fuel : Nat)
    (closed : ∀ literal ∈ (layer layers).toList, ∀ target, graph.Edge literal target →
      layers.Has target) :
    (do
      make start
      follow graph interrupted layer isTrue make fuel (layer layers).size).Ends layers
      (fun success after => good after ∧
        (∃ new, (layer after).toList = (layer layers).toList ++ start :: new ∧
          ∀ literal ∈ new, Relation.ReflTransGen graph.Edge start literal) ∧
        (success = true → ∀ literal ∈ (layer after).toList,
          ∀ target, graph.Edge literal target → after.Has target) ∧
        (success = false → Clashes graph layers start)) fun _ _ => False := by
  refine (mode.makes layers start isGood).bind ?_
  rintro _ middle ⟨goodMiddle, list, has⟩
  have old : (layer layers).toList.length = (layer layers).size := by simp
  refine (follow_ends mode goodMiddle start fuel ?_ ?_).imp ?_ fun _ _ no => no
  · intro other member target edge
    rw [list, List.take_left' old] at member
    exact (has target).2 (.inl (closed other member target edge))
  · intro other member
    rw [list, List.drop_left' old, List.mem_singleton] at member
    rw [member]
  · rintro success after ⟨goodAfter, ⟨new, listAfter, reached, hasAfter⟩, closes, clashes⟩
    refine ⟨goodAfter, ⟨new, ?_, reached⟩, closes, fun isFalse => ?_⟩
    · rw [listAfter, list, List.append_assoc]
      rfl
    · obtain ⟨target, path, opposite⟩ := clashes isFalse
      refine ⟨target, path, ?_⟩
      rw [hasAfter, has] at opposite
      rcases opposite with (earlier | same) | late
      · exact .inl earlier
      · rw [same]
        exact .inr .refl
      · exact .inr (reached _ late)

end Following

/-! ## Assumptions and conclusions -/

/-- The literals of both layers are closed under implications, and so are the
permanent ones on their own. -/
structure Closed (graph : Implications) (layers : TwoSat) : Prop where
  tracked : layers.Tracked
  units : ∀ literal ∈ layers.units.toList, ∀ target, graph.Edge literal target →
    target ∈ layers.units.toList
  both : ∀ literal, layers.Has literal → ∀ target, graph.Edge literal target → layers.Has target

theorem Closed.has_of_path (closed : Closed graph layers) {target : Literal}
    (path : Relation.ReflTransGen graph.Edge literal target) (has : layers.Has literal) :
    layers.Has target := by
  induction path with
  | refl => exact has
  | tail _ last ih => exact closed.both _ ih _ last

/-- An open literal that clashes implies its complement. -/
theorem Clashes.path_complement [Realm] (reflects : graph.Reflects picture)
    (closed : Closed graph layers) {start : Literal} (present : 0 < start.var)
    (isOpen : ¬ layers.Has start.complement) (clashes : Clashes graph layers start) :
    Relation.ReflTransGen graph.Edge start start.complement := by
  obtain ⟨literal, path, old | new⟩ := clashes
  · exact absurd (closed.has_of_path (reflects.path_contrapose path) old) isOpen
  · have inside : 0 < literal.var := by
      by_cases same : start = literal
      · exact same ▸ present
      · exact (reflects.present_of_path path same).1
    have back := reflects.path_contrapose new
    rw [Literal.complement_complement inside] at back
    exact path.trans back

/-- An assumption leaves the layers closed, or it clashes. -/
theorem suppose_ends (closed : Closed graph layers) :
    (suppose graph interrupted literal).Ends layers (fun success after =>
      after.Tracked ∧ after.units = layers.units ∧
        (∃ new, after.assumed.toList = layers.assumed.toList ++ literal :: new) ∧
        (success = true → Closed graph after) ∧
        (success = false → Clashes graph layers literal)) fun _ _ => False := by
  unfold suppose
  refine .step rfl ((pursue_ends (mode_suppose layers.units) ⟨closed.tracked, rfl⟩ literal _
    fun other member => closed.both other (.inr member)).imp ?_ fun _ _ no => no)
  rintro success after ⟨⟨tracked, units⟩, ⟨new, list, _⟩, closes, clashes⟩
  refine ⟨tracked, units, ⟨new, list⟩, fun isTrue => ⟨tracked, ?_, ?_⟩, clashes⟩
  · rw [units]
    exact closed.units
  · rintro other (isUnit | isAssumed) target edge
    · rw [units] at isUnit
      refine .inl ?_
      rw [units]
      exact closed.units other isUnit target edge
    · exact closes isTrue other isAssumed target edge

/-- A conclusion leaves the layers closed, or it clashes. -/
theorem conclude_ends (closed : Closed graph layers) (empty : layers.assumed = #[])
    (isOpen : ¬ layers.Has literal) (isFree : ¬ layers.Has literal.complement) :
    (conclude graph interrupted literal).Ends layers (fun success after =>
      (∃ new, after.units.toList = layers.units.toList ++ literal :: new ∧
        ∀ other ∈ new, Relation.ReflTransGen graph.Edge literal other) ∧
      (success = true → Closed graph after) ∧
      (success = false → Clashes graph layers literal)) fun _ _ => False := by
  have good : layers.Tracked ∧ layers.assumed = #[] := ⟨closed.tracked, empty⟩
  unfold conclude
  refine .step rfl (Run.Looks.access.bind fun opposite asked => ?_)
  rw [if_neg fun isTrue => isFree ((mode_conclude.asks layers _ opposite good asked).1 isTrue)]
  refine Run.Looks.access.bind fun known asked => ?_
  rw [if_neg fun isTrue => isOpen ((mode_conclude.asks layers _ known good asked).1 isTrue)]
  refine (pursue_ends mode_conclude good literal _
    fun other member => closed.both other (.inl member)).imp ?_ fun _ _ no => no
  rintro success after ⟨⟨tracked, none⟩, extended, closes, clashes⟩
  have onlyUnits : ∀ other, after.Has other ↔ other ∈ after.units.toList := by
    intro other
    simp [Has, none]
  refine ⟨extended, fun isTrue => ⟨tracked, fun other isUnit target edge => ?_, ?_⟩, clashes⟩
  · exact (onlyUnits target).1 (closes isTrue other isUnit target edge)
  · intro other has target edge
    exact closes isTrue other ((onlyUnits other).1 has) target edge

/-- Without assumptions only the permanent literals are left. -/
theorem has_dropAssumptions : layers.dropAssumptions.Has literal ↔ literal ∈ layers.units.toList := by
  change literal ∈ layers.units.toList ∨ literal ∈ (#[] : Array Literal).toList ↔ _
  simp

/-- The permanent literals are closed on their own. -/
theorem Closed.dropAssumptions (closed : Closed graph layers) (tracked : after.Tracked)
    (same : after.units = layers.units) : Closed graph after.dropAssumptions := by
  refine ⟨⟨tracked.permanent, tracked.temporary.clear⟩, ?_, ?_⟩
  · change ∀ literal ∈ after.units.toList, ∀ target, graph.Edge literal target →
      target ∈ after.units.toList
    rw [same]
    exact closed.units
  · intro other has target edge
    rw [has_dropAssumptions, same] at has ⊢
    exact closed.units other has target edge

/-! ## Solving -/

/-- A permanent literal is implied by its complement. -/
def Forced (graph : Implications) (literal : Literal) : Prop :=
  0 < literal.var ∧ Relation.ReflTransGen graph.Edge literal.complement literal

/-- What a forced literal implies is forced. -/
theorem Forced.of_path [Realm] (reflects : graph.Reflects picture) {target : Literal}
    (forced : Forced graph literal) (path : Relation.ReflTransGen graph.Edge literal target) :
    Forced graph target := by
  obtain ⟨present, own⟩ := forced
  refine ⟨?_, ((reflects.path_contrapose path).trans own).trans path⟩
  by_cases same : literal = target
  · exact same ▸ present
  · exact (reflects.present_of_path path same).1

/-- What is known of an unsettled variable. -/
theorem open_of_isSettled? (tracked : layers.Tracked)
    (asked : isSettled? trail graph layers name = some false) :
    ¬ layers.Has (Literal.ofVar name true) ∧ ¬ layers.Has (Literal.ofVar name true).complement := by
  simp only [isSettled?, Option.bind_eq_bind, Option.bind_eq_some_iff, Option.pure_def] at asked
  obtain ⟨value, _, asked⟩ := asked
  split at asked
  · cases asked
  simp only [Option.bind_eq_some_iff] at asked
  obtain ⟨forward, _, backward, _, asked⟩ := asked
  split at asked
  · cases asked
  simp only [Option.bind_eq_some_iff] at asked
  obtain ⟨positive, askedPositive, asked⟩ := asked
  split at asked
  · cases asked
  next notPositive =>
    refine ⟨fun has => notPositive ((isTrue?_spec tracked askedPositive).2 has), fun has => ?_⟩
    have isTrue := (isTrue?_spec tracked asked).2 has
    cases isTrue

/-- The preferred literal of a variable is one of its two literals. -/
theorem preferred?_cases (present : 0 < name) (small : 2 * name + 1 < UInt32.size)
    (chosen : preferred? trail name = some literal) :
    0 < literal.var ∧ ((literal = Literal.ofVar name true ∧
        literal.complement = (Literal.ofVar name true).complement) ∨
      (literal = (Literal.ofVar name true).complement ∧
        literal.complement = Literal.ofVar name true)) := by
  obtain ⟨state, _, rfl⟩ := Option.map_eq_some_iff.1 chosen
  refine ⟨by rwa [Literal.var_ofVar present small], ?_⟩
  rw [Literal.complement_ofVar present small, Literal.complement_ofVar present small]
  cases state.phase.getD false <;> simp

/-- Neither literal of an unsettled variable is true. -/
theorem open_of_preferred? (tracked : layers.Tracked) (present : 0 < name)
    (small : 2 * name + 1 < UInt32.size) (asked : isSettled? trail graph layers name = some false)
    (chosen : preferred? trail name = some literal) :
    0 < literal.var ∧ ¬ layers.Has literal ∧ ¬ layers.Has literal.complement := by
  obtain ⟨positive, which⟩ := preferred?_cases present small chosen
  obtain ⟨isOpen, isFree⟩ := open_of_isSettled? tracked asked
  refine ⟨positive, ?_⟩
  rcases which with ⟨same, opposite⟩ | ⟨same, opposite⟩
  · rw [same]
    exact ⟨isOpen, isFree⟩
  · rw [opposite, same]
    exact ⟨isFree, isOpen⟩

/-- The layers stay closed from variable to variable. -/
theorem solveLoop_ends [Realm] (reflects : graph.Reflects picture) (sound : trail.Sound)
    (fuel : Nat) (positive : 0 < name) (closed : Closed graph layers)
    (forced : ∀ literal ∈ layers.units.toList, Forced graph literal) :
    (solveLoop trail graph interrupted fuel name).Ends layers
      (fun _ after => ∀ literal ∈ after.units.toList, Forced graph literal)
      (fun cause after => cause = .inconsistent ∧
        (∀ literal ∈ after.units.toList, Forced graph literal) ∧
        ∃ literal ∈ after.units.toList,
          Relation.ReflTransGen graph.Edge literal literal.complement) := by
  induction fuel generalizing layers name with
  | zero => exact .stop
  | succ fuel ih =>
    unfold solveLoop
    split
    next => exact .pure forced
    next inRange =>
    have small : 2 * name + 1 < UInt32.size := by
      refine sound.small_of_lt ?_
      unfold Trail.numVars at inRange
      omega
    refine spend_ends.bind ?_
    rintro goOn _ ⟨budget, rfl⟩
    have closed : Closed graph { layers with budget := budget } :=
      ⟨⟨closed.tracked.permanent, closed.tracked.temporary⟩, closed.units, closed.both⟩
    split
    swap
    · exact .pure forced
    refine Run.Looks.read.bind fun settled asked => ?_
    cases settled with
    | true => exact ih (Nat.succ_pos name) closed forced
    | false =>
    refine Run.Looks.access.bind fun literal chosen => ?_
    obtain ⟨present, free⟩ := open_of_preferred? closed.tracked positive small asked chosen
    refine .bind ((suppose_ends closed).imp (fun _ _ holds => holds) fun _ _ no => no.elim) ?_
    rintro success middle ⟨tracked, units, _, closes, clashes⟩
    have sameUnits : middle.units = layers.units := units
    cases success with
    | true =>
      refine ih (Nat.succ_pos name) (closes rfl) ?_
      rw [sameUnits]
      exact forced
    | false =>
    have failed := (clashes rfl).path_complement reflects closed present free.2
    have presentComplement : 0 < literal.complement.var := by
      rwa [Literal.var_complement present]
    have onlyUnits : ∀ other, middle.dropAssumptions.Has other ↔ other ∈ layers.units.toList :=
      fun other => sameUnits ▸ has_dropAssumptions
    have closedDropped : Closed graph middle.dropAssumptions := closed.dropAssumptions tracked units
    refine .step rfl (.bind ((conclude_ends closedDropped rfl (fun has => ?_) fun has => ?_).imp
      (fun _ _ holds => holds) fun _ _ no => no.elim) ?_)
    · exact free.2 (.inl ((onlyUnits _).1 has))
    · rw [Literal.complement_complement present] at has
      exact free.1 (.inl ((onlyUnits _).1 has))
    rintro success last ⟨⟨new, list, reached⟩, closes, clashes⟩
    have listed : last.units.toList = layers.units.toList ++ literal.complement :: new :=
      sameUnits ▸ list
    have forcedComplement : Forced graph literal.complement := by
      refine ⟨presentComplement, ?_⟩
      rwa [Literal.complement_complement present]
    have forcedAll : ∀ other ∈ last.units.toList, Forced graph other := by
      intro other member
      rw [listed, List.mem_append, List.mem_cons] at member
      rcases member with early | rfl | late
      · exact forced other early
      · exact forcedComplement
      · exact forcedComplement.of_path reflects (reached other late)
    cases success with
    | true => exact ih Nat.one_pos (closes rfl) forcedAll
    | false =>
      refine .fail ⟨rfl, forcedAll, literal.complement, ?_, ?_⟩
      · rw [listed]
        exact List.mem_append_right _ List.mem_cons_self
      · refine (clashes rfl).path_complement reflects closedDropped presentComplement fun has => ?_
        rw [Literal.complement_complement present] at has
        exact free.1 (.inl ((onlyUnits _).1 has))

/-! ## Using what was found -/

section Engine

variable [Realm] {engine : Engine} {scope : Scope}

/-- A literal of the formula that its complement implies. -/
structure Follows (picture : Picture) (literal : Literal) : Prop where
  present : picture.Present literal.var
  reaches : picture.Reaches literal.complement literal

theorem Forced.follows {picture : Picture} (reflects : graph.Reflects picture)
    (forced : Forced graph literal) : Follows picture literal :=
  ⟨reflects.present_of_path forced.2 (Literal.complement_ne forced.1), reflects.reaches forced.2⟩

/-- What follows is found by unit propagation. -/
theorem Follows.rup {picture : Picture} (follows : Follows picture literal) :
    Rup picture.formula [literal] := by
  obtain ⟨present, reaches⟩ := follows
  have inside : 0 < literal.complement.var := by
    rw [Literal.var_complement present.1]
    exact present.1
  have derived := Picture.Reaches.rup_complement inside
    (by rwa [Literal.complement_complement present.1])
  rwa [Literal.complement_complement present.1] at derived

theorem Follows.of_leads {after : Engine} (follows : Follows engine.picture literal)
    (sound : engine.Sound) (leads : engine.Leads .propagation after) :
    Follows after.picture literal :=
  ⟨Steps.present leads.steps (by decide) follows.present,
    follows.reaches.of_steps (by decide) sound.wellFormed leads.steps⟩

/-- Literals that follow are assigned. -/
theorem works_assignAll (literals : List Literal)
    (follow : ∀ literal ∈ literals, Follows engine.picture literal) :
    Works .propagation (assignAll literals) engine fun _ after =>
      ∀ literal ∈ literals, literal ∈ after.trail.facts := by
  induction literals generalizing engine with
  | nil => exact .pure (by simp)
  | cons literal rest ih =>
    refine .of_sound fun (sound : engine.Sound) => ?_
    obtain ⟨own, others⟩ := List.forall_mem_cons.1 follow
    unfold assignAll
    refine (Engine.works_assignUnit own.present own.rup).bind fun _ middle leads assigns => ?_
    refine .of_sound fun (soundMiddle : middle.Sound) => ?_
    intro soundAgain
    refine (ih (fun other member => (others other member).of_leads sound leads) soundAgain).imp ?_
      fun _ _ fails => fails
    rintro _ after ⟨further, atRoot⟩
    exact ⟨further, List.forall_mem_cons.2 ⟨further.mem_root assigns.atRoot, atRoot⟩⟩

/-- Those that are open are. -/
theorem works_assignOpen (literals : List Literal)
    (follow : ∀ literal ∈ literals, Follows engine.picture literal) :
    Works .propagation (assignOpen literals) engine fun _ _ => True := by
  induction literals generalizing engine with
  | nil => exact .pure trivial
  | cons literal rest ih =>
    refine .of_sound fun (sound : engine.Sound) => ?_
    obtain ⟨own, others⟩ := List.forall_mem_cons.1 follow
    unfold assignOpen
    refine .look .read fun value _ => ?_
    split
    next =>
      refine (Engine.works_assignUnit own.present own.rup).bind fun _ middle leads _ => ?_
      refine (Engine.works_count _).bind fun _ counted further _ => ?_
      exact ih fun other member => (others other member).of_leads sound (leads.trans further)
    next => exact ih others

/-- Keeping a phase works. -/
theorem works_keepPhase {name : Nat} :
    Works scope (keepPhase layers name) engine fun _ _ => True := by
  have kept : ∀ phase, Works scope (Engine.updateTrail fun trail => trail.setPhase name phase)
      engine fun _ _ => True := by
    intro phase
    refine .of_ends fun sound => Engine.updateTrail_ends fun trail changed => ⟨?_, trivial⟩
    obtain ⟨same, _⟩ := Trail.vars_modify? changed
    have vars : trail.vars = engine.trail.vars.modify name
        fun state => { state with phase := some phase } := congrArg Trail.vars same
    have literals : trail.literals = engine.trail.literals := by rw [same]
    have values := Trail.value?_modify_of_keeps vars fun _ => rfl
    exact .of_sameTrail sound
      (Trail.sameFlags_modify vars (fun _ => rfl) (by rw [same]) (by rw [same])) literals
      (by rw [same]) (sound.trail.agrees.of_same_values literals values)
      (Trail.facts_congr literals values)
  unfold keepPhase
  refine .look .access fun positive _ => ?_
  split
  · exact kept true
  · refine .look .access fun negative _ => ?_
    split
    · exact kept false
    · exact .pure trivial

end Engine

variable [Realm] {state : Tool Unit × Engine}

/-- The solver is attempted: nothing but the budget of the tool changes. -/
theorem works_solveWithin (reflects : graph.Reflects state.2.picture) :
    Works scope (solveWithin graph) state fun result after => after.2 = state.2 ∧
      (∀ literal ∈ result.2.units.toList, Follows state.2.picture literal) ∧
      ∀ cause, result.1 = .error cause → cause = .inconsistent ∧
        ∃ literal ∈ result.2.units.toList, state.2.picture.Reaches literal literal.complement := by
  intro sound
  obtain ⟨tool, engine⟩ := state
  have closed : Closed graph (start engine.numVars tool.budget) :=
    ⟨⟨tracks_replicate _, tracks_replicate _⟩, by simp [start], by simp [Has, start]⟩
  have ends : (solve engine.trail graph engine.interrupted).Ends
      (start engine.numVars tool.budget) _ _ :=
    solveLoop_ends reflects sound.trail _ Nat.one_pos closed (by simp [start])
  unfold Run.Ends at ends ⊢
  unfold solveWithin
  dsimp only
  split at ends
  next solved layers ended =>
    rw [ended]
    exact ⟨.refl sound, rfl, fun literal member => (ends literal member).follows reflects, nofun⟩
  next cause layers ended =>
    rw [ended]
    obtain ⟨isInconsistent, forced, literal, member, path⟩ := ends
    refine ⟨.refl sound, rfl, fun literal member => (forced literal member).follows reflects, ?_⟩
    rintro other same
    obtain rfl : cause = other := by simpa using same
    exact ⟨isInconsistent, literal, member, reflects.reaches path⟩
  next why ended =>
    rw [ended]
    trivial

/-- Solving the binary clauses is propagation. -/
theorem works_run : Works .propagation run state fun _ _ => True := by
  unfold run
  refine .bind (Works.lift Engine.works_propagateUnits) fun _ propagated _ _ => ?_
  refine .bind (Works.lift Engine.works_implications) fun graph known _ ⟨_, _, reflects, _⟩ => ?_
  split
  next => exact .pure trivial
  next =>
  refine .of_sound fun (sound : known.2.Sound) => ?_
  refine .bind (works_solveWithin reflects) ?_
  rintro ⟨result, layers⟩ ⟨tool, _⟩ _ ⟨rfl, follow, refuted⟩
  cases result with
  | error cause =>
    obtain ⟨rfl, literal, member, reaches⟩ := refuted cause rfl
    refine .bind (Works.lift (works_assignAll _ follow)) fun _ assigned leads ⟨_, atRoot⟩ => ?_
    have present := (follow literal member).present.1
    refine .fail rfl (Engine.refuted_of_root (atRoot literal member) present ?_)
    exact reaches.of_steps (by decide) sound.wellFormed leads.steps
  | ok solved =>
    refine .bind (Works.lift (works_assignOpen _ follow)) fun _ assigned _ _ => ?_
    have finish : ∀ state : Tool Unit × Engine,
        Works .propagation (liftM Engine.propagateUnits : Work Unit Unit) state fun _ _ => True :=
      fun state => (Works.lift Engine.works_propagateUnits).imp fun _ _ _ => trivial
    dsimp only
    split
    next =>
      refine .look Engine.looks_look.lift fun numVars _ => ?_
      have phases : Works .propagation ((List.range' 1 numVars).forM fun name =>
          (liftM (keepPhase layers name) : Work Unit Unit)) assigned fun _ _ => True :=
        .forM trivial fun name _ state _ =>
          (Works.lift works_keepPhase).imp fun _ _ _ => trivial
      exact phases.bind fun _ last _ _ => finish last
    next => exact finish _

/-- A run of the solver of binary clauses comes to a conclusion. -/
theorem process_ends (sound : state.2.Sound) :
    process.Ends state (fun status after => state.2.Concludes .propagation status after.2)
      fun _ _ => False :=
  Work.process_ends sound fun _ => works_run

end TwoSat

end CnfSimplifier
