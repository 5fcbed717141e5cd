import CnfSimplifier.Proofs.Growth
import CnfSimplifier.Proofs.Consistency

/-!
# The growth bound of elimination

Elimination decides from a forecast: it counts the resolvents and looks at their
lengths without building them. What is stored afterwards are the same resolvents, so
there are no more of them than forecast and none is longer. All clauses of the variable
go, so on balance the number of live clauses rises by no more than the decision was
taken for, and the counter of the run adds up what was decided.

A call that fails leaves the resolvents that it stored before; then there is no bound.
-/
namespace CnfSimplifier

/-- A clause is a set of words, and there are not so many. -/
theorem Clause.size_le (clause : Clause) : clause.size ≤ UInt32.size := by
  have nodup : (clause.literals.map fun literal => literal.code.toNat).Nodup := by
    refine List.Nodup.map_on ?_ ?_
    · intro a _ b _ same
      obtain ⟨code, _⟩ := a
      obtain ⟨other, _⟩ := b
      obtain rfl : code = other := UInt32.toNat_inj.1 same
      rfl
    · refine clause.sorted.imp fun {a b} below => ?_
      rintro rfl
      exact UInt32.lt_irrefl a.code below
  have inside : (clause.literals.map fun literal => literal.code.toNat) ⊆ List.range UInt32.size := by
    intro number member
    obtain ⟨literal, _, rfl⟩ := List.mem_map.1 member
    exact List.mem_range.2 literal.code.toNat_lt
  have short := (List.subperm_of_subset nodup inside).length_le
  rwa [List.length_map, List.length_range] at short

theorem Arena.length_text_le (arena : Arena) (handle : Handle) :
    (arena.text handle).length ≤ UInt32.size := by
  unfold text
  cases arena.get? handle with
  | none => exact Nat.zero_le _
  | some clause => exact clause.size_le

/-- A resolvent is no longer than its parents together. -/
theorem Resolution.length_resolvent?_le {pivot : Nat} {first second resolvent : List Literal}
    (found : resolvent? pivot first second = some resolvent) :
    resolvent.length ≤ first.length + second.length := by
  fun_induction resolvent? pivot first second generalizing resolvent with
  | case1 =>
    cases found
    exact Nat.zero_le _
  | case2 a first same ih => exact (ih found).trans (by simp)
  | case4 b second same ih => exact (ih found).trans (by simp)
  | case6 a first b second same ih => exact (ih found).trans (by simp)
  | case7 a first b second different same ih => exact (ih found).trans (by simp)
  | case9 => cases found
  | case3 | case5 | case8 | case10 | case11 =>
    obtain ⟨rest, foundRest, rfl⟩ := Option.map_eq_some_iff.1 found
    rename_i ih
    have := ih foundRest
    simp only [List.length_cons] at this ⊢
    omega

/-- A search for a gate only moves clauses. -/
theorem Gate.onOutput?_perm {arena : Arena} {output : Literal} {withOutput withComplement : Array Handle}
    {found : Array Handle × Array Handle × Option Nat}
    (searched : onOutput? arena output withOutput withComplement = some found) :
    found.1.toList.Perm withOutput.toList ∧ found.2.1.toList.Perm withComplement.toList := by
  obtain ⟨binaries, _, further⟩ := Option.bind_eq_some_iff.1 searched
  split at further
  · cases further
    exact ⟨.refl _, .refl _⟩
  obtain ⟨defining, _, further⟩ := Option.bind_eq_some_iff.1 further
  split at further
  · cases further
    exact ⟨.refl _, .refl _⟩
  next place clause _ =>
    cases further
    exact ⟨moveToFront_perm withOutput [place] 0, moveToFront_perm _ _ _⟩

/-- A gate puts clauses to the front and leaves none out. -/
theorem Gate.search?_perm {arena : Arena} {pivot : Nat} {positive negative : Array Handle}
    {sides : GateSides} (searched : search? arena pivot positive negative = some sides) :
    sides.positive.toList.Perm positive.toList ∧ sides.negative.toList.Perm negative.toList := by
  obtain ⟨⟨first, second, found⟩, onFirst, further⟩ := Option.bind_eq_some_iff.1 searched
  dsimp only at further
  split at further
  · cases further
    exact onOutput?_perm onFirst
  · obtain ⟨⟨first, second, found⟩, onSecond, further⟩ := Option.bind_eq_some_iff.1 further
    cases further
    exact (onOutput?_perm onSecond).symm

/-- One more variable was marked as eliminated. -/
def Trail.Eliminates (name : Nat) (trail after : Trail) : Prop :=
  ∃ middle, trail.SameFlags middle ∧ middle.handle (.eliminated name) = some after

/-- An eliminated variable is counted. -/
theorem Trail.Eliminates.counted {name : Nat} {trail after : Trail} (retires : Eliminates name trail after) :
    after.eliminated = trail.eliminated + 1 := by
  obtain ⟨middle, same, handled⟩ := retires
  obtain ⟨marked, set, rfl⟩ := by simpa [handle, Option.bind_eq_some_iff] using handled
  obtain ⟨rfl, _⟩ := vars_modify? set
  exact congrArg (· + 1) same.eliminated

namespace Eliminator

/-! ## The forecast -/

/-- The selected resolvents of a clause with others. -/
def resolventsWith (arena : Arena) (gate : Option (Nat × Nat)) (pivot i : Nat)
    (literals : List Literal) (others : List (Handle × Nat)) : List (List Literal) :=
  others.filterMap fun entry =>
    if Gate.isSelected gate i entry.2 then
      Resolution.resolvent? pivot literals (arena.text entry.1)
    else none

/-- The selected resolvents of clauses with others. -/
def resolvents (arena : Arena) (gate : Option (Nat × Nat)) (pivot : Nat)
    (negative positive : List (Handle × Nat)) : List (List Literal) :=
  positive.flatMap fun entry =>
    resolventsWith arena gate pivot entry.2 (arena.text entry.1) negative

variable {arena : Arena} {gate : Option (Nat × Nat)} {pivot i : Nat} {literals : List Literal}
  {others negative positive : List (Handle × Nat)} {limit : UInt64} {handle : Handle}
  {settings : Settings} {sofar : Forecast} {before middle after : Tool Eliminator × Engine}
  {failed : Error → Tool Eliminator × Engine → Prop} {touched : List Nat}

/-- A selected partner adds its resolvent unless that is a tautology. -/
theorem resolventsWith_of_selected {j : Nat} {partner : Clause}
    (selected : Gate.isSelected gate i j = true) (found : arena.get? handle = some partner) :
    resolventsWith arena gate pivot i literals ((handle, j) :: others) =
      (Resolution.resolvent? pivot literals partner.literals).toList ++
        resolventsWith arena gate pivot i literals others := by
  unfold resolventsWith
  rw [List.filterMap_cons, if_pos selected, Arena.text_of_get? found]
  cases Resolution.resolvent? pivot literals partner.literals <;> rfl

theorem resolventsWith_of_not_selected {j : Nat} (notSelected : ¬ Gate.isSelected gate i j = true) :
    resolventsWith arena gate pivot i literals ((handle, j) :: others) =
      resolventsWith arena gate pivot i literals others := by
  unfold resolventsWith
  rw [List.filterMap_cons, if_neg notSelected]

theorem resolvents_cons {entry : Handle × Nat} {clause : Clause}
    (found : arena.get? entry.1 = some clause) :
    resolvents arena gate pivot negative (entry :: positive) =
      resolventsWith arena gate pivot entry.2 clause.literals negative ++
        resolvents arena gate pivot negative positive := by
  unfold resolvents
  rw [List.flatMap_cons, Arena.text_of_get? found]

theorem length_resolventsWith_le :
    (resolventsWith arena gate pivot i literals others).length ≤ others.length :=
  List.length_filterMap_le _ _

/-- There are no more resolvents than pairs. -/
theorem length_resolvents_le :
    (resolvents arena gate pivot negative positive).length ≤ positive.length * negative.length := by
  induction positive with
  | nil => simp [resolvents]
  | cons first rest ih =>
    have row : (resolventsWith arena gate pivot first.2 (arena.text first.1) negative).length ≤
        negative.length := length_resolventsWith_le
    unfold resolvents at ih ⊢
    rw [List.flatMap_cons, List.length_append, List.length_cons, Nat.succ_mul]
    omega

/-- The length of a resolvent fits into a word. -/
theorem length_le_of_mem_resolvents {resolvent : List Literal}
    (member : resolvent ∈ resolvents arena gate pivot negative positive) :
    resolvent.length < UInt64.size := by
  obtain ⟨own, _, inRow⟩ := List.mem_flatMap.1 member
  obtain ⟨other, _, found⟩ := List.mem_filterMap.1 inRow
  split at found
  · have below := Resolution.length_resolvent?_le found
    have first := arena.length_text_le own.1
    have second := arena.length_text_le other.1
    have size : UInt32.size = 4294967296 := rfl
    have wide : UInt64.size = 18446744073709551616 := rfl
    omega
  · cases found

variable {state : Tool Eliminator × Engine}

/-- A forecast counts the selected resolvents, and finds none too long. -/
structure Foresees (settings : Settings) (found : List (List Literal)) (sofar better : Forecast) :
    Prop where
  clauses : better.clauses = sofar.clauses + found.length
  fits : ∀ resolvent ∈ found, settings.tooLong resolvent.length = false

/-- Of the resolvents after some others one is empty or too long, or the bound is passed
at one of them. -/
def Refuses (settings : Settings) (bound : UInt64) (sofar : Nat) (found : List (List Literal)) :
    Prop :=
  (∃ resolvent ∈ found, resolvent = [] ∨ settings.tooLong resolvent.length = true) ∨
    ∃ count, sofar < count ∧ count ≤ sofar + found.length ∧ bound < UInt64.ofNat count

/-- A refusal among the first resolvents is one. -/
theorem Refuses.append_left {bound : UInt64} {sofar : Nat} {front : List (List Literal)}
    (refuses : Refuses settings bound sofar front) (back : List (List Literal)) :
    Refuses settings bound sofar (front ++ back) := by
  rcases refuses with ⟨resolvent, member, bad⟩ | ⟨count, after, inside, passed⟩
  · exact .inl ⟨resolvent, List.mem_append_left _ member, bad⟩
  · exact .inr ⟨count, after, by rw [List.length_append]; omega, passed⟩

/-- So is one among the later ones. -/
theorem Refuses.append_right {bound : UInt64} {sofar : Nat} {front back : List (List Literal)}
    (refuses : Refuses settings bound (sofar + front.length) back) :
    Refuses settings bound sofar (front ++ back) := by
  rcases refuses with ⟨resolvent, member, bad⟩ | ⟨count, after, inside, passed⟩
  · exact .inl ⟨resolvent, List.mem_append_right _ member, bad⟩
  · exact .inr ⟨count, by omega, by rw [List.length_append]; omega, passed⟩

theorem Foresees.nil : Foresees settings [] sofar sofar :=
  ⟨rfl, nofun⟩

theorem Foresees.append {front back : List (List Literal)} {sofar middle better : Forecast}
    (first : Foresees settings front sofar middle) (second : Foresees settings back middle better) :
    Foresees settings (front ++ back) sofar better := by
  refine ⟨?_, List.forall_mem_append.2 ⟨first.fits, second.fits⟩⟩
  rw [second.clauses, first.clauses, List.length_append, Nat.add_assoc]

/-- Only the budget changes. -/
structure Ponders (before after : Tool Eliminator × Engine) : Prop where
  own : after.1.own = before.1.own
  engine : after.2 = before.2

theorem Ponders.trans (first : Ponders before middle) (second : Ponders middle after) :
    Ponders before after :=
  ⟨second.own.trans first.own, second.engine.trans first.engine⟩

theorem spend_ponders (steps : Nat) :
    (Work.spend steps).Ends state (fun _ after => Ponders state after) failed :=
  .of_done rfl ⟨rfl, rfl⟩

/-- What a request for steps says. -/
theorem spend_exhausts (steps : Nat) :
    (Work.spend steps).Ends state (fun goOn after => Ponders state after ∧
      (goOn = false → after.1.budget.isExhausted = true)) failed := by
  obtain ⟨goOn, budget, spent, exhausted⟩ := Work.spend_done steps state.1 state.2
  exact .of_done spent ⟨⟨rfl, rfl⟩, exhausted⟩

/-- What a forecast for some resolvents after others says: with an answer they are
counted, and without one the steps have run out or one of them is refused. -/
structure Forecasts (bound : UInt64) (before : Tool Eliminator × Engine)
    (found : List (List Literal)) (sofar : Forecast) (answer : Option Forecast)
    (after : Tool Eliminator × Engine) : Prop where
  ponders : Ponders before after
  foresees : ∀ better, answer = some better → Foresees before.2.settings found sofar better
  refuses : answer = none → after.1.budget.isExhausted = true ∨
    Refuses before.2.settings bound sofar.clauses found

namespace Forecasts

variable {bound : UInt64} {front back : List (List Literal)} {next : Forecast}
  {answer : Option Forecast}

theorem nil : Forecasts bound before [] sofar (some sofar) before :=
  ⟨⟨rfl, rfl⟩, fun _ isFound => Option.some.inj isFound ▸ .nil, nofun⟩

/-- A refusal ends the count. -/
theorem of_refuses (ponders : Ponders before after)
    (refuses : after.1.budget.isExhausted = true ∨
      Refuses before.2.settings bound sofar.clauses front) :
    Forecasts bound before (front ++ back) sofar none after :=
  ⟨ponders, nofun, fun _ => refuses.imp_right fun refused => refused.append_left back⟩

/-- The count goes on after the first resolvents. -/
theorem append (ponders : Ponders before middle)
    (first : Foresees before.2.settings front sofar next)
    (rest : Forecasts bound middle back next answer after) :
    Forecasts bound before (front ++ back) sofar answer after := by
  obtain ⟨further, foresees, refuses⟩ := rest
  rw [ponders.engine] at foresees refuses
  refine ⟨ponders.trans further, fun better isFound => first.append (foresees better isFound),
    fun none_ => (refuses none_).imp_right fun refused => ?_⟩
  rw [first.clauses] at refused
  exact refused.append_right

end Forecasts

/-- The forecast for one clause counts its resolvents. -/
theorem forecastAgainst_forecasts (bound : UInt64) (others : List (Handle × Nat)) :
    (forecastAgainst bound gate pivot i literals others sofar).Ends state
      (Forecasts bound state (resolventsWith state.2.arena gate pivot i literals others) sofar)
      failed := by
  induction others generalizing state sofar with
  | nil => exact .pure .nil
  | cons entry rest ih =>
    obtain ⟨handle, j⟩ := entry
    unfold forecastAgainst
    split
    next selected =>
      refine Run.Looks.bind Engine.looks_clause.lift fun other found => ?_
      rw [resolventsWith_of_selected selected found]
      refine .bind (spend_exhausts _) ?_
      rintro goOn ⟨tool, engine⟩ ⟨⟨own, same⟩, exhausted⟩
      dsimp only at own same exhausted
      subst same
      have ponders : Ponders state (tool, state.2) := ⟨own, rfl⟩
      split
      swap
      next not => exact .pure (.of_refuses ponders (.inl (exhausted (by simpa using not))))
      refine .step rfl ?_
      rw [Resolution.size?_eq]
      cases Resolution.resolvent? pivot literals other.literals with
      | none =>
        have same : Foresees state.2.settings [] sofar
            { sofar with tautologies := sofar.tautologies + 1 } := ⟨rfl, List.forall_mem_nil _⟩
        exact ih.imp (fun _ after rest => .append ponders same rest) fun _ _ => id
      | some resolvent =>
        rw [Option.map_some]
        split
        next => contradiction
        next isEmpty =>
          refine .pure (.of_refuses ponders (.inr (.inl ⟨resolvent, by simp, .inl ?_⟩)))
          simpa using isEmpty
        next size different isSize =>
        cases isSize
        dsimp only
        split
        next refused =>
          refine .pure (.of_refuses ponders (.inr ?_))
          rw [Bool.or_eq_true, decide_eq_true_eq] at refused
          exact refused.imp (fun tooLong => ⟨resolvent, by simp, .inr tooLong⟩)
            fun passed => ⟨_, Nat.lt_succ_self _, by simp, passed⟩
        next fits =>
        have isFit : state.2.settings.tooLong resolvent.length = false := by simp_all
        exact ih.imp (fun _ after rest => .append ponders ⟨rfl, by simpa using isFit⟩ rest)
          fun _ _ => id
    next notSelected =>
      rw [resolventsWith_of_not_selected notSelected]
      exact ih

/-- The forecast counts the resolvents of all clauses. -/
theorem forecastAll_forecasts (bound : UInt64) (positive : List (Handle × Nat)) :
    (forecastAll bound gate pivot negative positive sofar).Ends state
      (Forecasts bound state (resolvents state.2.arena gate pivot negative positive) sofar)
      failed := by
  induction positive generalizing state sofar with
  | nil => exact .pure .nil
  | cons entry rest ih =>
    unfold forecastAll
    refine Run.Looks.bind Engine.looks_clause.lift fun clause found => ?_
    rw [resolvents_cons found]
    refine .bind (forecastAgainst_forecasts bound negative) fun row middle first => ?_
    cases row with
    | none => exact .pure (.of_refuses first.ponders (first.refuses rfl))
    | some next =>
      refine ih.imp (fun _ after rest => ?_) fun _ _ => id
      rw [first.ponders.engine] at rest
      exact .append first.ponders (first.foresees next rfl) rest

/-- A forecast is about the resolvents of the sides. -/
theorem forecast_forecasts {positive negative : List Handle} :
    (forecast positive negative pivot gate).Ends state
      (Forecasts (UInt64.ofNat (positive.length + negative.length) + state.2.settings.growth) state
        (resolvents state.2.arena gate pivot negative.zipIdx positive.zipIdx) {}) failed :=
  .step rfl (forecastAll_forecasts _ _)

/-! ## Storing the resolvents -/

/-- A number of clauses were added, and the counter of the run stands. -/
structure Stores (limit : UInt64) (count : Nat) (before after : Tool Eliminator × Engine) :
    Prop where
  engine : before.2.OnlyAdds limit count after.2
  grown : after.1.own.grown = before.1.own.grown

theorem Stores.trans {count more : Nat} (first : Stores limit count before middle)
    (second : Stores limit more middle after) : Stores limit (count + more) before after :=
  ⟨first.engine.trans second.engine, second.grown.trans first.grown⟩

/-- Waiting in the queue is no more than a mark. -/
theorem enqueue_stores (handle : Handle) :
    (onSubsumer (Subsumer.enqueue handle)).Ends state (fun _ after => Stores limit 0 state after)
      failed := by
  have enqueued : (Subsumer.enqueue handle).Ends (state.1.own.subsumer, state.2)
      (fun _ after => state.2.OnlyAdds limit 0 after.2) fun _ _ => False := by
    unfold Subsumer.enqueue
    refine .step rfl ?_
    split
    · exact .pure (.refl _)
    · split
      · exact .pure (.refl _)
      · have marks : (Engine.markClause handle fun flags => { flags with queued := true }).Ends
            state.2 (fun _ after => state.2.OnlyAdds limit 0 after) fun _ _ => False :=
          Engine.markClause_onlyAdds (by exact fun _ => rfl) (by exact fun _ => rfl)
        exact .bind (.lift marks) fun _ middle marked => .of_done rfl marked.2
  exact .within (onSubsumer_apply _ state) (enqueued.imp (fun _ _ adds => ⟨adds, rfl⟩) fun _ _ => False.elim)

theorem count_stores (limit : UInt64) {change : Tally → Tally} :
    (liftM (Engine.count change) : Work Eliminator Unit).Ends state
      (fun _ after => Stores limit 0 state after) failed :=
  .of_done rfl ⟨.of_sameClauses (.refl _) rfl rfl, rfl⟩

/-- A clause within the limit is stored, or none is. -/
theorem addClause_stores (within : WithinLimit limit literals.length) :
    (liftM (Engine.addClause literals false) : Work Eliminator (Option Handle)).Ends state
      (fun _ after => Stores limit 1 state after) fun _ after => state.2.Wanes after.2 :=
  (Run.Ends.lift (Engine.addClause_onlyAdds within)).imp
    (fun _ _ ⟨tool, adds⟩ => ⟨adds, by rw [tool]⟩) fun _ _ => id

/-- The resolvents of one clause are stored, and no others. -/
theorem resolveAgainst_stores {base : Arena} {clause : Clause}
    (found : base.get? handle = some clause) (others : List (Handle × Nat))
    (keeps : base.Keeps state.2.arena)
    (known : ∀ entry ∈ others, ∃ partner, base.get? entry.1 = some partner)
    (fit : ∀ resolvent ∈ resolventsWith base gate pivot i clause.literals others,
      WithinLimit limit resolvent.length) :
    (resolveAgainst gate pivot handle i others touched).Ends state
      (fun _ after => Stores limit
        (resolventsWith base gate pivot i clause.literals others).length state after)
      fun _ after => state.2.GrowsBy limit
        (resolventsWith base gate pivot i clause.literals others).length after.2 := by
  induction others generalizing state touched with
  | nil => exact .pure ⟨.refl _, rfl⟩
  | cons entry rest ih =>
    obtain ⟨other, j⟩ := entry
    have knownRest : ∀ entry ∈ rest, ∃ partner, base.get? entry.1 = some partner :=
      fun entry member => known entry (List.mem_cons_of_mem _ member)
    unfold resolveAgainst
    split
    next selected =>
      obtain ⟨partner, foundPartner⟩ := known (other, j) List.mem_cons_self
      refine Run.Looks.bind Engine.looks_clause.lift fun clauseNow foundNow => ?_
      refine Run.Looks.bind Engine.looks_clause.lift fun partnerNow foundPartnerNow => ?_
      obtain ⟨copy, again, literals, _⟩ := keeps _ _ found
      obtain ⟨copyPartner, againPartner, literalsPartner, _⟩ := keeps _ _ foundPartner
      obtain rfl : copy = clauseNow := Option.some.inj (again.symm.trans foundNow)
      obtain rfl : copyPartner = partnerNow :=
        Option.some.inj (againPartner.symm.trans foundPartnerNow)
      rw [literals, literalsPartner]
      rw [resolventsWith_of_selected selected foundPartner] at fit ⊢
      cases resolved : Resolution.resolvent? pivot clause.literals partner.literals with
      | none =>
        rw [resolved] at fit
        exact ih keeps knownRest fit
      | some resolvent =>
        rw [resolved] at fit
        have fitRest := fun other member => fit other (List.mem_append_right _ member)
        have within : WithinLimit limit resolvent.length := fit resolvent (by simp)
        have length : ((some resolvent).toList ++
            resolventsWith base gate pivot i clause.literals rest).length =
            1 + (resolventsWith base gate pivot i clause.literals rest).length := by
          rw [List.length_append]
          rfl
        rw [length]
        refine .bind (count_stores limit) fun _ counted started => ?_
        refine .bind ((addClause_stores within).imp (fun _ _ => started.trans) fun _ _ wanes =>
          (started.engine.toGrowsBy.trans wanes.grows).mono (Nat.zero_le _))
            fun stored middle first => ?_
        have resume : ∀ now : Tool Eliminator × Engine, Stores limit (0 + 1) state now →
            (resolveAgainst gate pivot handle i rest (touched ++ resolvent.map Literal.var)).Ends now
              (fun _ after => Stores limit
                (1 + (resolventsWith base gate pivot i clause.literals rest).length) state after)
              fun _ after => state.2.GrowsBy limit
                (1 + (resolventsWith base gate pivot i clause.literals rest).length) after.2 :=
          fun now stores => (ih (keeps.trans stores.engine.keeps) knownRest fitRest).imp
            (fun _ _ => stores.trans) fun _ _ => stores.engine.toGrowsBy.trans
        cases stored with
        | none => exact resume middle first
        | some new =>
          exact .bind (enqueue_stores new) fun _ queued more => resume queued (first.trans more)
    next notSelected =>
      rw [resolventsWith_of_not_selected notSelected] at fit ⊢
      exact ih keeps knownRest fit

/-- The resolvents of all clauses are stored, and no others. -/
theorem resolveAll_stores {base : Arena} (positive : List (Handle × Nat))
    (keeps : base.Keeps state.2.arena)
    (known : ∀ entry ∈ positive, ∃ clause, base.get? entry.1 = some clause)
    (knownPartners : ∀ entry ∈ negative, ∃ partner, base.get? entry.1 = some partner)
    (fit : ∀ resolvent ∈ resolvents base gate pivot negative positive,
      WithinLimit limit resolvent.length) :
    (resolveAll gate pivot negative positive touched).Ends state
      (fun _ after => Stores limit (resolvents base gate pivot negative positive).length state after)
      fun _ after => state.2.GrowsBy limit
        (resolvents base gate pivot negative positive).length after.2 := by
  induction positive generalizing state touched with
  | nil => exact .pure ⟨.refl _, rfl⟩
  | cons entry rest ih =>
    obtain ⟨clause, found⟩ := known entry List.mem_cons_self
    rw [resolvents_cons found] at fit ⊢
    rw [List.length_append]
    unfold resolveAll
    refine .bind ((resolveAgainst_stores found negative keeps knownPartners
      fun resolvent member => fit resolvent (List.mem_append_left _ member)).imp (fun _ _ => id)
        fun _ _ grows => grows.mono (Nat.le_add_right _ _)) fun _ middle stores => ?_
    exact (ih (keeps.trans stores.engine.keeps)
      (fun entry member => known entry (List.mem_cons_of_mem _ member))
      fun resolvent member => fit resolvent (List.mem_append_right _ member)).imp
        (fun _ _ => stores.trans) fun _ _ => stores.engine.toGrowsBy.trans

/-! ## Work that adds no clause -/

/-- Clauses went or became shorter, and the counter of the run stands. -/
structure Idles (before after : Tool Eliminator × Engine) : Prop where
  engine : before.2.Wanes after.2
  grown : after.1.own.grown = before.1.own.grown

theorem Idles.refl : Idles state state := ⟨.refl _, rfl⟩

theorem Idles.trans (first : Idles before middle) (second : Idles middle after) :
    Idles before after :=
  ⟨first.engine.trans second.engine, second.grown.trans first.grown⟩

theorem Ponders.idles {before after : Tool Eliminator × Engine} (ponders : Ponders before after) :
    Idles before after :=
  ⟨ponders.engine ▸ .refl _, by rw [ponders.own]⟩

/-- Work that adds no clause, however it ends. -/
def Idle {α : Type} (body : Work Eliminator α) : Prop :=
  ∀ state, body.Ends state (fun _ after => Idles state after)
    fun _ after => state.2.Wanes after.2

namespace Idle

variable {α β : Type}

theorem pure {value : α} : Idle (pure value : Work Eliminator α) := fun _ => .pure .refl

theorem bind {body : Work Eliminator α} {next : α → Work Eliminator β} (first : Idle body)
    (rest : ∀ value, Idle (next value)) : Idle (body >>= next) := by
  intro state
  refine (first state).bind fun value after idles => ?_
  exact (rest value after).imp (fun _ _ => idles.trans) fun _ _ => idles.engine.trans

theorem forM {ι : Type} {items : List ι} {turn : ι → Work Eliminator PUnit}
    (idle : ∀ item, Idle (turn item)) : Idle (items.forM turn) :=
  Run.forM_of_turns (motive := Idle) .pure (fun first rest => first.bind fun _ => rest)
    fun item _ => idle item

theorem lift {body : Run Engine α} (tracks : Tracks Engine.Wanes body) :
    Idle (liftM body : Work Eliminator α) := fun state =>
  (Run.Ends.lift (tracks state.2)).imp (fun _ _ ⟨tool, wanes⟩ => ⟨wanes, by rw [tool]⟩) fun _ _ => id

/-- What the subsumer does adds no resolvent. -/
theorem onSubsumer {body : Work Subsumer α} (tracks : Tracks Engine.Wanes body) :
    Idle (onSubsumer body) := by
  intro (tool, engine)
  have same : Eliminator.onSubsumer body (tool, engine) =
      (body (tool.own.subsumer, engine)).mapState
        fun part => ({ tool with own := { tool.own with subsumer := part.1 } }, part.2) := by
    unfold Eliminator.onSubsumer
    dsimp only
    cases body (tool.own.subsumer, engine) <;> rfl
  exact .within same ((tracks _).imp (fun _ _ wanes => ⟨wanes, rfl⟩) fun _ _ => id)

/-- The heap stores no clause. -/
theorem onHeap {body : Occurrences → Run VarHeap α} : Idle (onHeap body) := by
  intro (⟨budget, runs, ⟨heap, subsumer, grown⟩⟩, engine)
  unfold Eliminator.onHeap Run.Ends
  dsimp only
  cases body engine.index heap with
  | done value heap => exact ⟨.refl engine, rfl⟩
  | failed cause heap => exact .refl engine
  | stuck why => trivial

theorem offer {name : Nat} : Idle (offer name) := by
  refine .bind (.lift (.of_leaves .read)) fun removable => ?_
  split
  · exact .onHeap
  · exact .pure

end Idle

theorem onHeap_leaves {α : Type} {body : Occurrences → Run VarHeap α}
    (state : Tool Eliminator × Engine) :
    (onHeap body).Ends state (fun _ after => after.2 = state.2) fun _ _ => True := by
  exact .within (onHeap_apply body state) (Run.Ends.trivial.imp (fun _ _ _ => rfl) fun _ _ => id)

/-! ## Replacing the clauses of a variable -/

variable {literal : Literal} {engine : Engine}

/-- Every clause of a side is taken off the balance. -/
theorem removeSide_takes (handles : List Handle) {others : List Handle}
    (distinct : engine.arena.Distinct (handles ++ others)) :
    (removeSide literal handles touched).Ends engine
      (fun _ after => engine.Wanes after ∧
        after.arena.contents.card + handles.length = engine.arena.contents.card ∧
        after.arena.Distinct others)
      fun _ after => engine.Wanes after := by
  induction handles generalizing engine touched with
  | nil => exact .pure ⟨.refl engine, rfl, distinct⟩
  | cons handle rest ih =>
    obtain ⟨clause, live⟩ := distinct.live handle List.mem_cons_self
    obtain ⟨found, alive⟩ := Arena.live?_eq_some.1 live
    unfold removeSide
    refine .step (Engine.clause_of_get? found) ?_
    rw [if_neg (by rw [alive]; exact Bool.false_ne_true)]
    refine .bind (Engine.removeWithRecord_takes live) ?_
    rintro _ middle ⟨wanes, taken, untouched⟩
    refine (ih (distinct.of_others untouched)).imp ?_ fun _ _ => wanes.trans
    rintro _ after ⟨further, takenRest, left⟩
    refine ⟨wanes.trans further, ?_, left⟩
    rw [List.length_cons]
    omega

/-- The variable is marked, and no clause is touched. -/
theorem handleEliminated_ends (name : Nat) {failed : Error → Engine → Prop} :
    (Engine.handle (.eliminated name)).Ends engine (fun _ after =>
      after.arena = engine.arena ∧ after.settings = engine.settings ∧
        engine.trail.handle (.eliminated name) = some after.trail) failed :=
  .seq (Engine.updateTrail_ends fun _ handled => .of_done rfl ⟨rfl, rfl, handled⟩)

/-- The clauses of a variable are exchanged for its resolvents. -/
theorem replaceByResolvents_grows {sides : GateSides} {redundant : List Handle}
    (distinct : state.2.arena.Distinct (sides.positive.toList ++ sides.negative.toList))
    (fit : ∀ resolvent ∈ resolvents state.2.arena sides.gate pivot sides.negative.toList.zipIdx
      sides.positive.toList.zipIdx, WithinLimit limit resolvent.length) :
    (replaceByResolvents pivot sides redundant touched).Ends state
      (fun _ after => state.2.GrowsBy limit ((resolvents state.2.arena sides.gate pivot
          sides.negative.toList.zipIdx sides.positive.toList.zipIdx).length -
            (sides.positive.size + sides.negative.size)) after.2 ∧
        after.1.own.grown = state.1.own.grown ∧ Trail.Eliminates pivot state.2.trail after.2.trail)
      fun _ after => state.2.GrowsBy limit (resolvents state.2.arena sides.gate pivot
        sides.negative.toList.zipIdx sides.positive.toList.zipIdx).length after.2 := by
  generalize amount : (resolvents state.2.arena sides.gate pivot sides.negative.toList.zipIdx
    sides.positive.toList.zipIdx).length = count
  have known : ∀ handles : List Handle,
      handles.Sublist (sides.positive.toList ++ sides.negative.toList) →
      ∀ entry ∈ handles.zipIdx, ∃ clause, state.2.arena.get? entry.1 = some clause := by
    intro handles sublist entry member
    obtain ⟨clause, live⟩ := distinct.live entry.1
      (sublist.subset (List.fst_mem_of_mem_zipIdx member))
    exact ⟨clause, (Arena.live?_eq_some.1 live).1⟩
  unfold replaceByResolvents
  refine .bind (amount ▸ resolveAll_stores _ (.refl _) (known _ (List.sublist_append_left _ _))
    (known _ (List.sublist_append_right _ _)) fit) fun touched stored stores => ?_
  have grows := stores.engine.toGrowsBy
  refine .bind ((Run.Ends.lift (removeSide_takes _ (distinct.of_keeps stores.engine.keeps))).imp
    (fun _ _ => id) fun _ _ wanes => grows.wanes wanes) fun touched first => ?_
  rintro ⟨toolFirst, wanesFirst, takenFirst, left⟩
  rw [← List.append_nil sides.negative.toList] at left
  refine .bind ((Run.Ends.lift (removeSide_takes _ left)).imp
    (fun _ _ => id) fun _ _ wanes => grows.wanes (wanesFirst.trans wanes)) fun touched second => ?_
  rintro ⟨toolSecond, wanesSecond, takenSecond, _⟩
  have wanes := wanesFirst.trans wanesSecond
  refine .bind ((Idle.forM (fun handle => .lift (Engine.made_removeIfLive.tracks : Tracks Engine.Wanes _))
    second).imp (fun _ _ => id) fun _ _ further => grows.wanes (wanes.trans further))
      fun _ third idles => ?_
  have retired : (Engine.handle (.eliminated pivot)).Ends third.2 (fun _ after =>
      after.arena = third.2.arena ∧ after.settings = third.2.settings ∧
        third.2.trail.handle (.eliminated pivot) = some after.trail) fun _ _ => False :=
    handleEliminated_ends pivot
  refine .bind ((Run.Ends.lift retired).imp (fun _ _ => id) fun _ _ => False.elim) fun _ last => ?_
  rintro ⟨toolLast, arena, settings, handled⟩
  obtain ⟨⟨changed, same⟩, counter, marked⟩ :
      state.2.GrowsBy limit (count - (sides.positive.size + sides.negative.size)) last.2 ∧
        last.1.own.grown = state.1.own.grown ∧ Trail.Eliminates pivot state.2.trail last.2.trail := by
    have whole := wanes.trans idles.engine
    have older := (grows.wanes whole).arena.older
    have fewer := idles.engine.arena.fewer
    have few := grows.arena.few
    rw [Array.length_toList] at takenFirst takenSecond
    refine ⟨⟨⟨?_, ?_, ?_⟩, ?_⟩, ?_, ?_⟩
    · rwa [arena]
    · rw [arena]
      omega
    · rw [arena]
      exact (grows.wanes whole).arena.space
    · rw [settings, whole.settings, grows.settings]
    · rw [toolLast, idles.grown, toolSecond, toolFirst, stores.grown]
    · exact ⟨third.2.trail, stores.engine.flags.trans whole.flags, handled⟩
  refine .step rfl ?_
  split
  · exact .step rfl (.pure ⟨⟨changed, same⟩, counter, marked⟩)
  · exact .pure ⟨⟨changed, same⟩, counter, marked⟩

/-! ## The decision -/

/-- What an attempt comes to: by how many clauses the formula grew at most. If it grew,
the limit for one variable allowed it, it was added to the counter of the run, and the
limit for the run allowed that too. An attempt that eliminates nothing adds nothing. -/
structure Tries (step : Nat) (before after : Tool Eliminator × Engine) : Prop where
  engine : before.2.GrowsBy before.2.settings.resolventLength step after.2
  grown : after.1.own.grown = before.1.own.grown + UInt64.ofNat step
  allowed : step ≠ 0 → step ≤ before.2.settings.growth.toNat ∧ 2 * step < UInt64.size ∧
    after.1.own.grown ≤ before.2.settings.totalGrowth
  declined : after.2.trail.eliminated = before.2.trail.eliminated → step = 0

theorem Idles.tries {before after : Tool Eliminator × Engine} (idles : Idles before after) :
    Tries 0 before after :=
  ⟨idles.engine.grows, by rw [idles.grown]; simp, fun grew => absurd rfl grew, fun _ => rfl⟩

/-- An idle part may come before a trial. -/
theorem Tries.after_idles {step : Nat} (tries : Tries step middle after)
    (idles : Idles before middle) : Tries step before after := by
  obtain ⟨engine, grown, allowed, declined⟩ := tries
  rw [idles.engine.settings] at engine allowed
  rw [idles.grown] at grown
  rw [idles.engine.flags.eliminated] at declined
  exact ⟨idles.engine.trans_grows engine, grown, allowed, declined⟩

/-- Clauses of few handles have few resolvents. -/
theorem two_mul_lt_of_le_mul {count first second : Nat} (few : first + second < UInt32.size)
    (bound : count ≤ first * second) : 2 * count < UInt64.size := by
  have size : UInt32.size = 4294967296 := rfl
  have wide : UInt64.size = 18446744073709551616 := rfl
  rcases Nat.le_total first 2147483648 with small | large
  · have product := Nat.mul_le_mul_right second small
    omega
  · have small : second ≤ 2147483648 := by omega
    have product := Nat.mul_le_mul_left first small
    omega

/-- The number of resolvents fits into a word, twice over. -/
theorem two_mul_length_resolvents_lt {positive negative : Array Handle}
    (few : positive.size + negative.size < UInt32.size) :
    2 * (resolvents arena gate pivot negative.toList.zipIdx positive.toList.zipIdx).length <
      UInt64.size := by
  refine two_mul_lt_of_le_mul few (length_resolvents_le.trans_eq ?_)
  rw [List.length_zipIdx, List.length_zipIdx, Array.length_toList, Array.length_toList]

/-- A variable is eliminated only if the limits allow it. -/
theorem decideElimination_tries {sides : GateSides} {redundant : List Handle}
    (distinct : state.2.arena.Distinct (sides.positive.toList ++ sides.negative.toList))
    (few : sides.positive.size + sides.negative.size < UInt32.size) :
    (decideElimination pivot sides redundant touched).Ends state
      (fun _ after => ∃ step, Tries step state after)
      fun _ after => state.2.Enlarges state.2.settings.resolventLength after.2 := by
  unfold decideElimination
  refine .bind forecast_forecasts fun found ⟨tool, engine⟩ ⟨ponders, foresees, _⟩ => ?_
  cases found with
  | none => exact .pure ⟨0, ponders.idles.tries⟩
  | some forecast =>
  refine .step rfl (.step rfl ?_)
  dsimp only
  split
  · exact .pure ⟨0, ponders.idles.tries⟩
  next accepted =>
  obtain ⟨own, same⟩ := ponders
  dsimp only at own same accepted
  subst same
  obtain ⟨clauses, fits⟩ := foresees forecast rfl
  simp only [Bool.or_eq_true, decide_eq_true_eq, not_or, UInt64.not_lt] at accepted
  obtain ⟨enough, total⟩ := accepted
  have small : 2 * (resolvents state.2.arena sides.gate pivot sides.negative.toList.zipIdx
      sides.positive.toList.zipIdx).length < UInt64.size := two_mul_length_resolvents_lt few
  have fit := fun resolvent member => Settings.withinLimit (fits resolvent member)
    (length_le_of_mem_resolvents member)
  generalize amount : (resolvents state.2.arena sides.gate pivot sides.negative.toList.zipIdx
    sides.positive.toList.zipIdx).length = count at clauses small
  have sum : forecast.clauses = count := clauses.trans (Nat.zero_add count)
  rw [sum] at enough total ⊢
  rw [own] at total ⊢
  refine .step rfl (.imp (replaceByResolvents_grows (by exact distinct) (by exact fit)) ?_
    fun _ _ grows => grows.enlarges)
  rintro _ after ⟨grows, counter, retires⟩
  have marked := retires.counted
  dsimp only at grows counter marked
  rw [amount] at grows
  refine ⟨_, grows, counter, fun _ => ⟨?_, by omega, ?_⟩, fun same => ?_⟩
  · have size : UInt32.size = 4294967296 := rfl
    have wide : UInt64.size = 18446744073709551616 := rfl
    have below := UInt64.le_iff_toNat_le.1 enough
    rw [UInt64.toNat_ofNat_of_lt' (by omega), UInt64.toNat_add,
      UInt64.toNat_ofNat_of_lt' (by omega)] at below
    have unwrapped := below.trans (Nat.mod_le _ _)
    omega
  · rw [counter]
    exact total
  · omega

/-! ## Attempts -/

theorem count_idles {change : Tally → Tally} :
    (liftM (Engine.count change) : Work Eliminator Unit).Ends state
      (fun _ after => Idles state after ∧ after.2.arena = state.2.arena) failed :=
  .of_done rfl ⟨⟨⟨.refl _, rfl, .refl _⟩, rfl⟩, rfl⟩

/-- Removing a clause leaves fewer. -/
theorem removeWithRecord_idles {handles : List Handle}
    (distinct : state.2.arena.Distinct (handle :: handles)) :
    (liftM (Engine.removeWithRecord handle literal) : Work Eliminator Unit).Ends state
      (fun _ after => Idles state after ∧ after.2.arena.Distinct handles ∧
        after.2.arena.contents.card < state.2.arena.contents.card)
      fun _ after => state.2.Wanes after.2 := by
  obtain ⟨clause, live⟩ := distinct.live handle List.mem_cons_self
  refine (Run.Ends.lift (Engine.removeWithRecord_takes live)).imp ?_ fun _ _ => id
  rintro _ after ⟨tool, wanes, taken, untouched⟩
  exact ⟨⟨wanes, by rw [tool]⟩, distinct.of_others untouched, by omega⟩

/-- Blocked clauses go, and the others are as they were. If variables are reported, some
clauses went. -/
theorem removeBlocked_idles {partners others : List Handle} (remaining : Nat) {side : Array Handle}
    (distinct : state.2.arena.Distinct (side.toList ++ others)) :
    (removeBlocked literal partners remaining side touched).Ends state
      (fun result after => Idles state after ∧
        after.2.arena.Distinct (result.2.1.toList ++ others) ∧ result.2.1.size ≤ side.size ∧
        (result.2.2 = touched ∨ after.2.arena.contents.card < state.2.arena.contents.card))
      fun _ after => state.2.Wanes after.2 := by
  induction remaining generalizing state side touched with
  | zero => exact .pure ⟨.refl, distinct, le_rfl, .inl rfl⟩
  | succ remaining ih =>
    unfold removeBlocked
    refine Run.Looks.access.bind fun handle here => ?_
    refine Run.Looks.bind Engine.looks_clause.lift fun clause found => ?_
    refine .bind (spend_ponders _) fun enough middle ponders => ?_
    have idles := ponders.idles
    rw [← ponders.engine] at distinct ⊢
    split
    swap
    · exact .pure ⟨idles, distinct, le_rfl, .inl rfl⟩
    refine .step rfl (Run.Looks.access.bind fun blocked _ => ?_)
    split
    swap
    · exact (ih distinct).imp (fun _ _ held => ⟨idles.trans held.1, held.2⟩) fun _ _ => id
    have perm := Bag.swapPop_perm here
    have shorter := perm.length_eq
    refine .bind (removeWithRecord_idles (distinct.of_perm (perm.append_right others))) ?_
    rintro _ removed ⟨removes, left, fewer⟩
    refine .bind (count_idles.imp (fun _ _ => id) fun _ _ => removes.engine.trans) ?_
    rintro _ counted ⟨counts, same⟩
    rw [← same] at left
    have further := removes.trans counts
    refine (ih left).imp ?_ fun _ _ => further.engine.trans
    rintro result after ⟨last, rest, small, _⟩
    rw [List.length_cons, Array.length_toList, Array.length_toList] at shorter
    have few := last.engine.arena.fewer
    rw [same] at few
    exact ⟨idles.trans (further.trans last), rest, by omega, .inr (few.trans_lt fewer)⟩

/-- Removing blocked clauses stores none. -/
theorem removeBlockedSide_idles {others : List Handle} {side : Array Handle}
    (distinct : state.2.arena.Distinct (side.toList ++ others)) :
    (removeBlockedSide literal side touched).Ends state
      (fun result after => Idles state after ∧
        after.2.arena.Distinct (result.2.1.toList ++ others) ∧ result.2.1.size ≤ side.size ∧
        (result.2.2 = touched ∨ after.2.arena.contents.card < state.2.arena.contents.card))
      fun _ after => state.2.Wanes after.2 := by
  unfold removeBlockedSide
  refine Run.Looks.bind Engine.looks_occurrences.lift fun listed _ => .step rfl ?_
  exact removeBlocked_idles _ distinct

theorem searchGate_looks_perm {positive negative : Array Handle} :
    (searchGate pivot positive negative).Looks engine fun sides =>
      sides.positive.toList.Perm positive.toList ∧ sides.negative.toList.Perm negative.toList :=
  Run.Ends.read fun _ searched => ⟨rfl, Gate.search?_perm searched⟩

/-- From the state at its start an attempt comes to something, or it stores resolvents
before it fails. -/
def Attempts {α : Type} (start : Tool Eliminator × Engine) (body : Work Eliminator α)
    (state : Tool Eliminator × Engine) : Prop :=
  body.Ends state (fun _ after => ∃ step, Tries step start after)
    fun _ after => start.2.Enlarges start.2.settings.resolventLength after.2

section Attempts

variable {α : Type} {start : Tool Eliminator × Engine} {body : Work Eliminator α}

theorem Attempts.after_idles (attempts : Attempts state body state) (idles : Idles start state) :
    Attempts start body state := by
  refine Run.Ends.imp attempts ?_ ?_
  · rintro _ after ⟨step, tries⟩
    exact ⟨step, tries.after_idles idles⟩
  · intro _ after enlarges
    rw [idles.engine.settings] at enlarges
    exact idles.engine.enlarges.trans enlarges

theorem Attempts.of_idles {value : α} (idles : Idles start state) :
    Attempts start (pure value) state := Run.Ends.pure ⟨0, idles.tries⟩

/-- Work that adds nothing comes before. -/
theorem Attempts.bind {β : Type} {next : α → Work Eliminator β}
    {done : α → Tool Eliminator × Engine → Prop} (idles : Idles start state)
    (first : body.Ends state (fun value after => Idles state after ∧ done value after)
      fun _ after => state.2.Wanes after.2)
    (rest : ∀ value after, Idles start after → done value after → Attempts start (next value) after) :
    Attempts start (body >>= next) state :=
  Run.Ends.bind (first.imp (fun _ _ => id) fun _ _ wanes => (idles.engine.trans wanes).enlarges)
    fun value after ⟨more, holds⟩ => rest value after (idles.trans more) holds

/-- After blocked clauses are gone the rest is attempted. -/
theorem afterBlocked_attempts {sides : GateSides} {redundant : List Handle}
    (distinct : state.2.arena.Distinct (sides.positive.toList ++ sides.negative.toList))
    (few : sides.positive.size + sides.negative.size < UInt32.size) :
    Attempts state (afterBlocked pivot sides redundant) state := by
  unfold afterBlocked
  refine .bind .refl (removeBlockedSide_idles distinct)
    fun (enough, positive, touched) first idles ⟨left, fewer, _⟩ => ?_
  dsimp only at left fewer ⊢
  split
  swap
  · exact .of_idles idles
  refine .bind idles (removeBlockedSide_idles (left.of_perm List.perm_append_comm))
    fun (enough, negative, touched) second idles ⟨distinct, fewer, _⟩ => ?_
  dsimp only at distinct fewer ⊢
  have distinct := distinct.of_perm List.perm_append_comm
  split
  swap
  · exact .of_idles idles
  have decides : ∀ sides : GateSides, sides.positive.toList.Perm positive.toList →
      sides.negative.toList.Perm negative.toList →
      Attempts state (decideElimination pivot sides redundant touched) second := by
    intro sides permPositive permNegative
    have lengthPositive := permPositive.length_eq
    have lengthNegative := permNegative.length_eq
    simp only [Array.length_toList] at lengthPositive lengthNegative
    exact Attempts.after_idles (decideElimination_tries
      (distinct.of_perm (permPositive.append permNegative)) (by omega)) idles
  split
  · refine Run.Looks.bind searchGate_looks_perm.lift fun found ⟨permPositive, permNegative⟩ => ?_
    exact decides found permPositive permNegative
  · exact decides _ (.refl _) (.refl _)

/-- The clauses of a variable are those with its literal and others with the complement. -/
theorem distinct_of_sides {positive negative redundant more : List Handle}
    (consistent : engine.Consistent) (own : engine.Side literal positive redundant)
    (others : engine.Side literal.complement negative more) :
    engine.arena.Distinct (positive ++ negative) := by
  refine ⟨List.nodup_append.2 ⟨own.distinct, others.distinct, ?_⟩, ?_⟩
  · rintro handle inOwn other inOthers rfl
    obtain ⟨clause, live, inside⟩ := own.all handle inOwn
    obtain ⟨same, again, clash⟩ := others.all handle inOthers
    rw [live, Option.some.injEq] at again
    subst again
    exact (consistent.formed clause (Arena.mem_liveClauses_of_live? live)).proper literal inside clash
  · intro handle member
    rcases List.mem_append.1 member with inside | inside
    · obtain ⟨clause, live, _⟩ := own.all handle inside
      exact ⟨clause, live⟩
    · obtain ⟨clause, live, _⟩ := others.all handle inside
      exact ⟨clause, live⟩

/-- A trial keeps to the growth that it accounts for. -/
theorem eliminate_attempts (consistent : state.2.Consistent) (pivot : Nat) :
    Attempts state (eliminate pivot) state := by
  have listed := consistent.filed.listed
  unfold eliminate
  refine Run.Looks.bind (clausesWith_looks listed).lift fun (positive, _) ⟨own, _⟩ => ?_
  refine Run.Looks.bind (clausesWith_looks listed).lift fun (negative, _) ⟨others, _⟩ => ?_
  dsimp only at own others ⊢
  have distinct := distinct_of_sides consistent own others
  have few := (distinct.length_le consistent.space.le).trans_lt consistent.space
  rw [List.length_append] at few
  refine Run.Ends.step rfl ?_
  have decides : ∀ (sides : GateSides) (redundant : List Handle) (now : Tool Eliminator × Engine),
      now.2 = state.2 → Idles state now → sides.positive.toList.Perm positive →
      sides.negative.toList.Perm negative →
      Attempts state (if (sides.gate.isNone && state.2.settings.skips positive.length
          negative.length) = true then pure []
        else if state.2.settings.blockedDuringElimination = true then
          afterBlocked pivot sides redundant
        else decideElimination pivot sides redundant []) now := by
    intro sides redundant now same idles permPositive permNegative
    have apart := distinct.of_perm (permPositive.append permNegative)
    rw [← same] at apart
    have lengthPositive := permPositive.length_eq
    have lengthNegative := permNegative.length_eq
    rw [Array.length_toList] at lengthPositive lengthNegative
    split
    · exact Attempts.of_idles idles
    split
    · exact (afterBlocked_attempts apart (by omega)).after_idles idles
    · exact Attempts.after_idles (decideElimination_tries apart (by omega)) idles
  dsimp only
  by_cases gates : state.2.settings.gates = true
  · simp only [gates, if_true]
    refine Run.Ends.bind (spend_ponders _) fun enough now ponders => ?_
    split
    · refine Run.Looks.bind searchGate_looks_perm.lift fun sides ⟨permPositive, permNegative⟩ => ?_
      exact decides sides _ now ponders.engine ponders.idles permPositive permNegative
    · exact Attempts.of_idles ponders.idles
  · simp only [gates, if_false, Bool.false_eq_true]
    exact Run.Ends.step rfl (decides _ _ state rfl .refl (.refl _) (.refl _))

end Attempts

end Eliminator

end CnfSimplifier
