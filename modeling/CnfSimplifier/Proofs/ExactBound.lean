import CnfSimplifier.Proofs.BlockedSides

/-!
# The exact bound of elimination

What an attempt decides about are the irredundant clauses of the variable that are left
when the blocked ones went. It eliminates the variable exactly if it did not pass it over,
no resolvent is too long, and they are few enough for the limit of one variable and for
that of the run.

The counts are added to the limits in 64-bit words. Where a sum does not wrap round, that
is the comparison of the numbers. A limit near the largest word makes the sum small, and
then the variable stays although the limit allows all its resolvents.
-/
namespace CnfSimplifier

/-- What is within the limit is not too long. -/
theorem Settings.tooLong_eq_false {settings : Settings} {length : Nat}
    (within : WithinLimit settings.resolventLength length) (small : length < UInt64.size) :
    settings.tooLong length = false := by
  unfold tooLong
  rw [Bool.and_eq_false_iff, bne_eq_false_iff_eq, decide_eq_false_iff_not, UInt64.lt_iff_toNat_lt,
    UInt64.toNat_ofNat_of_lt' small, Nat.not_lt]
  exact or_iff_not_imp_left.2 within

namespace Resolution

/-- The resolvent of a clause in its form has a literal. -/
theorem resolvent?_ne_nil {numVars pivot : Nat} {first second resolvent : List Literal}
    (formed : FormedOver numVars first)
    (found : resolvent? pivot first second = some resolvent) : resolvent ≠ [] := by
  rintro rfl
  have onPivot : ∀ literal ∈ first, literal.var = pivot := fun literal inside => by
    by_contra different
    exact List.not_mem_nil ((mem_resolvent? found).2 ⟨.inl inside, different⟩)
  match first, formed, onPivot with
  | [], formed, _ => exact absurd formed.two (by simp)
  | [_], formed, _ => exact absurd formed.two (by simp)
  | a :: b :: rest, formed, onPivot =>
    have inA : a ∈ a :: b :: rest := List.mem_cons_self
    have inB : b ∈ a :: b :: rest := List.mem_cons_of_mem _ List.mem_cons_self
    have below : a < b := List.rel_of_pairwise_cons formed.ascending List.mem_cons_self
    have sameVar : b.var = a.var := (onPivot b inB).trans (onPivot a inA).symm
    rcases Literal.eq_or_eq_complement (formed.inRange a inA).1 sameVar with rfl | rfl
    · exact UInt32.lt_irrefl _ below
    · exact formed.proper a inA inB

end Resolution

/-! ## Searches in arenas that agree -/

namespace Gate

variable {arena after : Arena} {output : Literal}

/-- Binary clauses are read off the given clauses. -/
theorem binaries?_congr {entries : List (Handle × Nat)}
    (same : ∀ entry ∈ entries, after.get? entry.1 = arena.get? entry.1) :
    binaries? after output entries = binaries? arena output entries := by
  induction entries with
  | nil => rfl
  | cons entry rest ih =>
    obtain ⟨first, others⟩ := List.forall_mem_cons.1 same
    simp only [binaries?, first, ih others]

/-- The search for a gate reads the given clauses only. -/
theorem find?_congr {binaries : List (Literal × Nat)} {handles : List Handle} {place : Nat}
    (same : ∀ handle ∈ handles, after.get? handle = arena.get? handle) :
    find? after output binaries handles place = find? arena output binaries handles place := by
  induction handles generalizing place with
  | nil => rfl
  | cons handle rest ih =>
    obtain ⟨first, others⟩ := List.forall_mem_cons.1 same
    simp only [find?, first, ih others]

/-- So does the question for the gate of a literal. -/
theorem onOutput?_congr {withOutput withComplement : Array Handle}
    (same : ∀ handle ∈ withOutput.toList, after.get? handle = arena.get? handle)
    (sameComplement : ∀ handle ∈ withComplement.toList, after.get? handle = arena.get? handle) :
    onOutput? after output withOutput withComplement =
      onOutput? arena output withOutput withComplement := by
  unfold onOutput?
  rw [binaries?_congr fun entry member => sameComplement _ (List.fst_mem_of_mem_zipIdx member)]
  simp only [find?_congr same]

/-- A search reads no more than the clauses that it is given. -/
theorem search?_congr {pivot : Nat} {positive negative : Array Handle}
    (samePositive : ∀ handle ∈ positive.toList, after.get? handle = arena.get? handle)
    (sameNegative : ∀ handle ∈ negative.toList, after.get? handle = arena.get? handle) :
    search? after pivot positive negative = search? arena pivot positive negative := by
  unfold search?
  simp only [onOutput?_congr samePositive sameNegative, onOutput?_congr sameNegative samePositive]

end Gate

namespace Eliminator

variable {arena after : Arena} {pivot : Nat}

/-- The resolvents are a matter of the texts of the clauses. -/
theorem resolvents_congr {gate : Option (Nat × Nat)} {positive negative : List Handle}
    (samePositive : ∀ handle ∈ positive, after.get? handle = arena.get? handle)
    (sameNegative : ∀ handle ∈ negative, after.get? handle = arena.get? handle) :
    resolvents after gate pivot negative.zipIdx positive.zipIdx =
      resolvents arena gate pivot negative.zipIdx positive.zipIdx := by
  unfold resolvents resolventsWith
  refine List.flatMap_congr fun entry member => List.filterMap_congr fun other memberOther => ?_
  rw [Arena.text, Arena.text, Arena.text, Arena.text,
    samePositive _ (List.fst_mem_of_mem_zipIdx member),
    sameNegative _ (List.fst_mem_of_mem_zipIdx memberOther)]

end Eliminator

/-! ## What is decided about -/

/-- The number of clauses of both sides. -/
def GateSides.count (sides : GateSides) : Nat := sides.positive.size + sides.negative.size

/-- The selected resolvents of the two sides of a variable. -/
def GateSides.resolvents (sides : GateSides) (arena : Arena) (pivot : Nat) : List (List Literal) :=
  Eliminator.resolvents arena sides.gate pivot sides.negative.toList.zipIdx
    sides.positive.toList.zipIdx

namespace Engine

variable {engine : Engine} {pivot : Nat} {sides : GateSides}

open ClauseForm

/-- Whether an attempt goes on to a decision: a gate was found, or the variable does not
have too many occurrences. -/
def Considers (engine : Engine) (pivot : Nat) : Prop :=
  ∃ sides, engine.sides? pivot = some sides ∧ Eliminator.passesOver engine sides = false

/-- The clauses that are left when the blocked ones of either sign went, if they go. -/
def unblocked (engine : Engine) (pivot : Nat) : Set ClauseForm :=
  if engine.settings.blockedDuringElimination then
    sweep (sweep engine.forms (Literal.ofVar pivot true)) (Literal.ofVar pivot true).complement
  else engine.forms

/-- The given handles are those of the irredundant clauses of a set with a literal. -/
structure Selects (engine : Engine) (forms : Set ClauseForm) (literal : Literal)
    (handles : List Handle) : Prop where
  distinct : handles.Nodup
  mem_iff : ∀ handle, handle ∈ handles ↔ ∃ clause, engine.arena.live? handle = some clause ∧
    clause.isRedundant = false ∧ literal ∈ clause.literals ∧ clause.form ∈ forms

/-- The sides that a decision is about: the irredundant clauses of the variable that are
left, in the order of the search for a gate if one was found before. -/
structure Remains (engine : Engine) (pivot : Nat) (sides : GateSides) : Prop where
  positive : engine.Selects (engine.unblocked pivot) (Literal.ofVar pivot true)
    sides.positive.toList
  negative : engine.Selects (engine.unblocked pivot) (Literal.ofVar pivot true).complement
    sides.negative.toList
  gate : ∃ first, engine.sides? pivot = some first ∧
    if first.gate.isSome then
      ∃ positive negative, Gate.search? engine.arena pivot positive negative = some sides
    else sides.gate = none

/-- The gate of the sides is the one that was found. -/
theorem sides?_gate (chosen : engine.sides? pivot = some sides) :
    if sides.gate.isSome then
      ∃ positive negative, Gate.search? engine.arena pivot positive negative = some sides
    else sides.gate = none := by
  split
  next found =>
    unfold sides? at chosen
    split at chosen
    · exact ⟨_, _, chosen⟩
    · cases chosen
      cases found
  next none_ => simpa using none_

theorem not_eliminated (removable : engine.isRemovable? pivot = some true) :
    ¬ engine.trail.Eliminated pivot := by
  rintro ⟨flags, found, isEliminated⟩
  exact (removable_of_isRemovable? removable).kept
    ⟨flags, found, by simp [VarFlags.isRemoved, isEliminated]⟩

/-- The live clauses of an engine are those of another one whose form is in a set. -/
structure LeavesOnly (base : Engine) (left : Set ClauseForm) (engine : Engine) : Prop where
  forms : engine.forms = left
  live : ∀ handle clause, engine.arena.live? handle = some clause ↔
    base.arena.live? handle = some clause ∧ clause.form ∈ left

namespace LeavesOnly

variable {base : Engine} {left : Set ClauseForm} {literal : Literal}
  {own others redundant : List Handle}

theorem refl : LeavesOnly base base.forms base :=
  ⟨rfl, fun _ _ => ⟨fun live => ⟨live, form_mem live⟩, And.left⟩⟩

/-- A side has the irredundant clauses with its literal. -/
theorem selects (leaves : LeavesOnly base left engine) (side : engine.Side literal own redundant)
    (areRedundant : ∀ handle ∈ redundant, ∃ clause, engine.arena.live? handle = some clause ∧
      clause.isRedundant = true) : base.Selects left literal own := by
  refine ⟨side.distinct, fun handle => ⟨fun member => ?_, ?_⟩⟩
  · obtain ⟨clause, live, inside⟩ := side.all handle member
    obtain ⟨before, form⟩ := (leaves.live handle clause).1 live
    exact ⟨clause, before, side.irredundant handle member clause live, inside, form⟩
  · rintro ⟨clause, before, irredundant, inside, form⟩
    have live := (leaves.live handle clause).2 ⟨before, form⟩
    refine (side.covers handle clause live inside).resolve_right fun member => ?_
    obtain ⟨again, liveAgain, isRedundant⟩ := areRedundant handle member
    rw [live, Option.some.injEq] at liveAgain
    rw [← liveAgain, irredundant] at isRedundant
    cases isRedundant

/-- The handles of a side name what they named. -/
theorem get?_eq (leaves : LeavesOnly base left engine) (side : engine.Side literal own redundant) :
    ∀ handle ∈ own, engine.arena.get? handle = base.arena.get? handle := by
  intro handle member
  obtain ⟨clause, live, _⟩ := side.all handle member
  have before := ((leaves.live handle clause).1 live).1
  rw [(Arena.live?_eq_some.1 live).1, (Arena.live?_eq_some.1 before).1]

end LeavesOnly

/-- Without a removal of blocked clauses the sides are those that the search ends with. -/
theorem remains_of_sides? (consistent : engine.Consistent) (inRange : pivot ≤ engine.numVars)
    (positivePivot : 0 < pivot) (small : 2 * pivot + 1 < UInt32.size)
    (stays : engine.settings.blockedDuringElimination = false)
    (chosen : engine.sides? pivot = some sides) : engine.Remains pivot sides := by
  have isPivot : (Literal.ofVar pivot true).var = pivot := Literal.var_ofVar positivePivot small
  have ofComplement : (Literal.ofVar pivot true).complement.var = pivot :=
    (Literal.var_complement (by rwa [isPivot])).trans isPivot
  have left : engine.unblocked pivot = engine.forms := if_neg (by simp [stays])
  have selects : ∀ literal handles, literal.var = pivot →
      handles.Perm (engine.irredundantWith literal) →
      engine.Selects (engine.unblocked pivot) literal handles := by
    intro literal handles sameVar perm
    obtain ⟨entry, found, exact_⟩ := consistent.listed literal (sameVar ▸ inRange)
    refine ⟨perm.nodup_iff.2 ?_, fun handle => ?_⟩
    all_goals
      unfold irredundantWith Occurrences.list? at *
      simp only [found, Option.map_some, Option.getD_some] at *
    · exact exact_.nodup.filter _
    · rw [perm.mem_iff, List.mem_filter, exact_.mem_iff, left]
      constructor
      · rintro ⟨⟨clause, live, inside⟩, keeps⟩
        rw [live] at keeps
        refine ⟨clause, live, ?_, inside, form_mem live⟩
        simpa using (Bool.and_eq_true_iff.1 keeps).2
      · rintro ⟨clause, live, irredundant, inside, _⟩
        refine ⟨⟨clause, live, inside⟩, ?_⟩
        simp [live, irredundant, Clause.contains, inside]
  obtain ⟨permPositive, permNegative⟩ := sides?_perm chosen
  exact ⟨selects _ _ isPivot permPositive, selects _ _ ofComplement permNegative,
    sides, chosen, sides?_gate chosen⟩

/-- The clauses of both sides are different ones, of which there are few. -/
theorem Remains.few (consistent : engine.Consistent) (remains : engine.Remains pivot sides) :
    sides.count < UInt32.size := by
  have distinct : engine.arena.Distinct (sides.positive.toList ++ sides.negative.toList) := by
    refine ⟨List.nodup_append.2 ⟨remains.positive.distinct, remains.negative.distinct, ?_⟩, ?_⟩
    · rintro handle inPositive _ inNegative rfl
      obtain ⟨clause, live, _, inside, _⟩ := (remains.positive.mem_iff handle).1 inPositive
      obtain ⟨again, liveAgain, _, clash, _⟩ := (remains.negative.mem_iff handle).1 inNegative
      rw [live, Option.some.injEq] at liveAgain
      subst liveAgain
      exact (consistent.formed clause (Arena.mem_liveClauses_of_live? live)).proper _ inside clash
    · refine List.forall_mem_append.2 ⟨fun handle member => ?_, fun handle member => ?_⟩
      · obtain ⟨clause, live, _⟩ := (remains.positive.mem_iff handle).1 member
        exact ⟨clause, live⟩
      · obtain ⟨clause, live, _⟩ := (remains.negative.mem_iff handle).1 member
        exact ⟨clause, live⟩
  have short := (distinct.length_le consistent.space.le).trans_lt consistent.space
  rwa [List.length_append, Array.length_toList, Array.length_toList] at short

end Engine

/-! ## The decision -/

namespace Eliminator

open Engine ClauseForm

variable {settings : Settings} {grown : UInt64} {old pivot : Nat} {found : List (List Literal)}
  {state : Tool Eliminator × Engine} {sides : GateSides}

/-- The limits as the machine compares them. -/
structure Admitted (settings : Settings) (grown : UInt64) (old : Nat) (found : List (List Literal)) :
    Prop where
  short : ∀ resolvent ∈ found, WithinLimit settings.resolventLength resolvent.length
  growth : found.length ≤ (old + settings.growth.toNat) % UInt64.size
  total : (grown.toNat + (found.length - old)) % UInt64.size ≤ settings.totalGrowth.toNat

/-- The limits as they are documented. -/
structure WithinBounds (settings : Settings) (grown : UInt64) (old : Nat)
    (found : List (List Literal)) : Prop where
  short : ∀ resolvent ∈ found, WithinLimit settings.resolventLength resolvent.length
  growth : (found.length : Int) - old ≤ settings.growth.toNat
  total : (grown.toNat : Int) + max 0 ((found.length : Int) - old) ≤ settings.totalGrowth.toNat

/-- Where no sum wraps round the machine compares the numbers. -/
theorem admitted_iff (growth : old + settings.growth.toNat < UInt64.size)
    (total : grown.toNat + (found.length - old) < UInt64.size) :
    Admitted settings grown old found ↔ WithinBounds settings grown old found := by
  constructor
  · rintro ⟨short, few, within⟩
    rw [Nat.mod_eq_of_lt growth] at few
    rw [Nat.mod_eq_of_lt total] at within
    exact ⟨short, by omega, by omega⟩
  · rintro ⟨short, few, within⟩
    refine ⟨short, ?_, ?_⟩
    · rw [Nat.mod_eq_of_lt growth]
      omega
    · rw [Nat.mod_eq_of_lt total]
      omega

theorem toNat_ofNat_add (count : Nat) (word : UInt64) :
    (UInt64.ofNat count + word).toNat = (count + word.toNat) % UInt64.size := by
  rw [UInt64.toNat_add, UInt64.toNat_ofNat', Nat.mod_add_mod]

/-- What is refused is not admitted. -/
theorem Refuses.not_admitted
    (refuses : Refuses settings (UInt64.ofNat old + settings.growth) 0 found)
    (nonempty : ∀ resolvent ∈ found, resolvent ≠ [])
    (short : ∀ resolvent ∈ found, resolvent.length < UInt64.size)
    (few : found.length < UInt64.size) : ¬ Admitted settings grown old found := by
  intro admitted
  rcases refuses with ⟨resolvent, member, isEmpty | tooLong⟩ | ⟨count, _, inside, passed⟩
  · exact nonempty resolvent member isEmpty
  · rw [Settings.tooLong_eq_false (admitted.short resolvent member) (short resolvent member)]
      at tooLong
    cases tooLong
  · rw [UInt64.lt_iff_toNat_lt, toNat_ofNat_add, UInt64.toNat_ofNat_of_lt' (by omega)] at passed
    have := admitted.growth
    omega

/-- The comparisons of the machine. -/
theorem admitted_iff_compared
    (short : ∀ resolvent ∈ found, WithinLimit settings.resolventLength resolvent.length)
    (few : found.length < UInt64.size) :
    Admitted settings grown old found ↔
      ¬ (UInt64.ofNat old + settings.growth < UInt64.ofNat found.length ||
        settings.totalGrowth < grown + UInt64.ofNat (found.length - old)) = true := by
  rw [UInt64.add_comm grown, Bool.or_eq_true, decide_eq_true_eq, decide_eq_true_eq,
    UInt64.lt_iff_toNat_lt, UInt64.lt_iff_toNat_lt, toNat_ofNat_add, toNat_ofNat_add,
    UInt64.toNat_ofNat_of_lt' few, not_or, Nat.not_lt, Nat.not_lt, Nat.add_comm _ grown.toNat]
  exact ⟨fun ⟨_, growth, total⟩ => ⟨growth, total⟩, fun ⟨growth, total⟩ => ⟨short, growth, total⟩⟩

/-- What replaces a variable eliminates it. -/
theorem replaceByResolvents_eliminates {redundant : List Handle} {touched : List Nat} :
    (replaceByResolvents pivot sides redundant touched).Ends state
      (fun _ after => after.2.trail.Eliminated pivot) fun _ _ => True := by
  unfold replaceByResolvents
  refine .bind .trivial fun _ _ _ => .bind .trivial fun _ _ _ => .bind .trivial fun _ _ _ =>
    .bind .trivial fun _ last _ => ?_
  have retires : (Engine.handle (.eliminated pivot)).Ends last.2
      (fun _ after => after.trail.Eliminated pivot) fun _ _ => True := by
    refine .seq (updateTrail_ends fun trail handled => .of_done rfl ?_)
    obtain ⟨marked, set, done_⟩ := Option.bind_eq_some_iff.1 handled
    obtain ⟨rfl, inside⟩ := Trail.vars_modify? set
    cases done_
    refine ⟨(last.2.trail.vars[pivot]).flags.set .eliminated true, ?_, rfl⟩
    change ((last.2.trail.vars.modify pivot _)[pivot]?).map VarState.flags = _
    rw [Array.getElem?_modify, if_pos rfl, Array.getElem?_eq_getElem inside]
    rfl
  refine .bind (Run.Ends.lift retires) fun _ gone ⟨_, eliminated⟩ => .step rfl ?_
  split
  · exact .step rfl (.pure eliminated)
  · exact .pure eliminated

/-- A variable is eliminated exactly if the machine finds the limits kept. -/
theorem decideElimination_decides {redundant : List Handle} {touched : List Nat}
    (kept : ¬ state.2.trail.Eliminated pivot)
    (few : sides.count < UInt32.size)
    (nonempty : ∀ resolvent ∈ sides.resolvents state.2.arena pivot, resolvent ≠ []) :
    (decideElimination pivot sides redundant touched).Ends state
      (fun _ after => after.1.budget.isExhausted = false → (after.2.trail.Eliminated pivot ↔
        Admitted state.2.settings state.1.own.grown sides.count
          (sides.resolvents state.2.arena pivot))) fun _ _ => True := by
  have small : 2 * (sides.resolvents state.2.arena pivot).length < UInt64.size :=
    two_mul_length_resolvents_lt few
  have fits : ∀ resolvent ∈ sides.resolvents state.2.arena pivot,
      resolvent.length < UInt64.size := fun _ => length_le_of_mem_resolvents
  unfold decideElimination
  refine .bind forecast_forecasts fun answer ⟨tool, engine⟩ ⟨⟨own, same⟩, foresees, refuses⟩ => ?_
  dsimp only at own same refuses
  subst same
  change ∀ better, _ → Foresees _ (sides.resolvents state.2.arena pivot) _ _ at foresees
  change _ → _ ∨ Refuses _ (UInt64.ofNat sides.count + _) 0 (sides.resolvents state.2.arena pivot)
    at refuses
  generalize sides.resolvents state.2.arena pivot = found at *
  cases answer with
  | none =>
    refine .pure fun enough => ⟨fun gone => absurd gone kept, fun admitted => ?_⟩
    rcases refuses rfl with exhausted | refused
    · rw [enough] at exhausted
      cases exhausted
    · exact absurd admitted (refused.not_admitted nonempty fits (by omega))
  | some forecast =>
    obtain ⟨clauses, within⟩ := foresees forecast rfl
    rw [Nat.zero_add] at clauses
    have short := fun resolvent member => Settings.withinLimit (within resolvent member)
      (fits resolvent member)
    have compared : Admitted state.2.settings state.1.own.grown sides.count found ↔ _ :=
      admitted_iff_compared short (by omega)
    refine .step rfl (.step rfl ?_)
    dsimp only
    rw [clauses, own]
    split
    next refused =>
      refine .pure fun _ => ⟨fun gone => absurd gone kept, fun admitted => ?_⟩
      exact absurd refused (compared.1 admitted)
    next accepted =>
      refine .step rfl (replaceByResolvents_eliminates.imp (fun _ after gone _ => ?_) fun _ _ => id)
      exact ⟨fun _ => compared.2 accepted, fun _ => gone⟩

/-! ## Attempts -/

/-- What an attempt from a state comes to if its steps suffice: it eliminates the variable
exactly if it goes on to a decision and the machine finds the limits kept. -/
def Decided (start : Tool Eliminator × Engine) (pivot : Nat) (after : Tool Eliminator × Engine) :
    Prop :=
  after.1.budget.isExhausted = false → ∃ sides,
    (start.2.Considers pivot → start.2.Remains pivot sides) ∧
    (after.2.trail.Eliminated pivot ↔ start.2.Considers pivot ∧
      Admitted start.2.settings start.1.own.grown sides.count
        (sides.resolvents start.2.arena pivot))

variable {start : Tool Eliminator × Engine} {redundant : List Handle} {touched : List Nat}

theorem Decided.of_exhausted (exhausted : state.1.budget.isExhausted = true) :
    Decided start pivot state := fun enough => by
  rw [enough] at exhausted
  cases exhausted

/-- Some blocked clauses went since the start, and nothing else happened. -/
structure Purged (start : Tool Eliminator × Engine) (left : Set ClauseForm)
    (state : Tool Eliminator × Engine) : Prop where
  leaves : LeavesOnly start.2 left state.2
  own : state.1.own = start.1.own
  trail : state.2.trail = start.2.trail
  settings : state.2.settings = start.2.settings

/-- What a sweep leaves. -/
theorem Purged.of_swept {left : Set ClauseForm} {literal : Literal} {side : Array Handle}
    {others removed : List Handle} {result : Bool × Array Handle × List Nat}
    {after : Tool Eliminator × Engine} (purged : Purged start left state)
    (swept : Swept literal side others redundant touched state result after removed)
    (isDone : result.1 = true) : Purged start (sweep left literal) after := by
  obtain ⟨⟨rfl, live⟩, own, trail, settings⟩ := purged
  have forms := swept.forms isDone
  refine ⟨⟨forms, fun handle clause => ?_⟩, swept.own.trans own, swept.drops.trail.trans trail,
    swept.drops.settings.trans settings⟩
  rw [swept.drops.live?_eq_some, live]
  constructor
  · rintro ⟨⟨before, form⟩, absent⟩
    refine ⟨before, forms ▸ form_mem (swept.drops.live?_eq_some.2 ⟨?_, absent⟩)⟩
    exact (live handle clause).2 ⟨before, form⟩
  · rintro ⟨before, form, stays⟩
    refine ⟨⟨before, form⟩, fun isGone => ?_⟩
    obtain ⟨irredundant, isBlocked⟩ :=
      swept.blocked handle isGone clause ((live handle clause).2 ⟨before, form⟩)
    rcases stays with isRedundant | isFree
    · exact Bool.false_ne_true (irredundant.symm.trans isRedundant)
    · exact isFree isBlocked

/-- With the blocked clauses gone the decision is about the sides that remain. -/
theorem decideElimination_decided (consistent : start.2.Consistent)
    (removable : start.2.isRemovable? pivot = some true) (considers : start.2.Considers pivot)
    (purged : Purged start (start.2.unblocked pivot) state)
    (splits : state.2.Splits (Literal.ofVar pivot true) sides.positive.toList sides.negative.toList
      redundant)
    (gate : ∃ first, start.2.sides? pivot = some first ∧ if first.gate.isSome then
        ∃ positive negative, Gate.search? start.2.arena pivot positive negative = some sides
      else sides.gate = none) :
    (decideElimination pivot sides redundant touched).Ends state
      (fun _ after => Decided start pivot after) fun _ _ => True := by
  obtain ⟨leaves, own, trail, settings⟩ := purged
  have remains : start.2.Remains pivot sides := ⟨leaves.selects splits.own splits.redundant,
    leaves.selects splits.others splits.redundant, gate⟩
  have same : sides.resolvents state.2.arena pivot = sides.resolvents start.2.arena pivot :=
    resolvents_congr (leaves.get?_eq splits.own) (leaves.get?_eq splits.others)
  have kept : ¬ state.2.trail.Eliminated pivot := trail ▸ not_eliminated removable
  have nonempty : ∀ resolvent ∈ sides.resolvents state.2.arena pivot, resolvent ≠ [] := by
    intro resolvent member
    rw [same] at member
    obtain ⟨entry, inPositive, inRow⟩ := List.mem_flatMap.1 member
    obtain ⟨other, _, found⟩ := List.mem_filterMap.1 inRow
    obtain ⟨clause, live, _⟩ :=
      (remains.positive.mem_iff entry.1).1 (List.fst_mem_of_mem_zipIdx inPositive)
    rw [Arena.text_of_live? live] at found
    split at found
    · exact Resolution.resolvent?_ne_nil
        (consistent.formed clause (Arena.mem_liveClauses_of_live? live)) found
    · cases found
  refine (decideElimination_decides kept (remains.few consistent) nonempty).imp ?_ fun _ _ => id
  intro _ after decides enough
  refine ⟨sides, fun _ => remains, ?_⟩
  rw [decides enough, same, settings, own, and_iff_right considers]

/-- The decision after blocked clauses are gone is exact. -/
theorem afterBlocked_decided (consistent : start.2.Consistent)
    (removable : start.2.isRemovable? pivot = some true) (ponders : Ponders start state)
    (begins : Begins start.2 pivot sides redundant) (tried : passesOver start.2 sides = false)
    (blocks : start.2.settings.blockedDuringElimination = true) :
    (afterBlocked pivot sides redundant).Ends state (fun _ after => Decided start pivot after)
      fun _ _ => True := by
  obtain ⟨tool, engine⟩ := state
  obtain ⟨own, same⟩ := ponders
  dsimp only at own same
  subst same
  have filed := consistent.filed
  have formed : ∀ handle clause, start.2.arena.live? handle = some clause →
      FormedOver start.2.numVars clause.literals := fun handle clause live =>
    consistent.formed clause (Arena.mem_liveClauses_of_live? live)
  have left : start.2.unblocked pivot = sweep (sweep start.2.forms (Literal.ofVar pivot true))
      (Literal.ofVar pivot true).complement := if_pos blocks
  have purged : Purged start start.2.forms (tool, start.2) := ⟨.refl, own, rfl, rfl⟩
  unfold afterBlocked
  refine .bind ((removeBlockedSide_sweeps (by exact filed) (by exact formed)
    (by exact begins.splits)).imp (fun _ _ => id) fun _ _ => False.elim) ?_
  rintro ⟨enough, positive, seen⟩ first ⟨_, sweptFirst⟩
  have short := sweptFirst.enough
  dsimp only at short ⊢
  split
  swap
  next not => exact .pure (.of_exhausted (short (by simpa using not)))
  next isDone =>
  have purgedFirst := purged.of_swept sweptFirst isDone
  have splitsFirst := sweptFirst.splits.swap
  refine .bind ((removeBlockedSide_sweeps (sweptFirst.drops.filed _ filed)
    (sweptFirst.formed formed) splitsFirst).imp (fun _ _ => id) fun _ _ => False.elim) ?_
  rintro ⟨enough, negative, seen⟩ second ⟨_, sweptSecond⟩
  have short := sweptSecond.enough
  dsimp only at short ⊢
  split
  swap
  next not => exact .pure (.of_exhausted (short (by simpa using not)))
  next isDone =>
  have purgedSecond := purgedFirst.of_swept sweptSecond isDone
  rw [← left] at purgedSecond
  have splitsSecond := sweptSecond.splits.swap
  rw [Literal.complement_complement begins.splits.present] at splitsSecond
  dsimp only at splitsSecond
  have considers : start.2.Considers pivot := ⟨sides, begins.chosen, tried⟩
  split
  next found =>
    refine Run.Looks.bind Run.Looks.read.lift fun again searched => ?_
    obtain ⟨permPositive, permNegative⟩ := Gate.search?_perm searched
    rw [Gate.search?_congr (purgedSecond.leaves.get?_eq splitsSecond.own)
      (purgedSecond.leaves.get?_eq splitsSecond.others)] at searched
    refine decideElimination_decided consistent removable considers purgedSecond
      ⟨splitsSecond.own.of_perm permPositive, splitsSecond.others.of_perm permNegative,
        splitsSecond.redundant, splitsSecond.removable, splitsSecond.present⟩
      ⟨sides, begins.chosen, ?_⟩
    rw [if_pos found]
    exact ⟨positive, negative, searched⟩
  next none_ =>
    refine .step rfl (decideElimination_decided consistent removable considers purgedSecond
      splitsSecond ⟨sides, begins.chosen, ?_⟩)
    rw [if_neg none_]

/-- A trial decides exactly as the bounds say. -/
theorem eliminate_decided (consistent : start.2.Consistent) (positivePivot : 0 < pivot)
    (small : 2 * pivot + 1 < UInt32.size) (removable : start.2.isRemovable? pivot = some true) :
    (eliminate pivot).Ends start (fun _ after => Decided start pivot after) fun _ _ => True := by
  refine eliminate_ends consistent.filed.listed (removable_of_isRemovable? removable) positivePivot
    small (fun after _ exhausted => .of_exhausted exhausted) ?_ ?_
  · intro after sides redundant ponders begins passed enough
    have not : ¬ start.2.Considers pivot := by
      rintro ⟨chosen, found, tried⟩
      rw [begins.chosen, Option.some.injEq] at found
      rw [← found, passed] at tried
      cases tried
    have kept : ¬ after.2.trail.Eliminated pivot := ponders.engine ▸ not_eliminated removable
    exact ⟨sides, fun considers => absurd considers not,
      fun gone => absurd gone kept, fun both => absurd both.1 not⟩
  · intro after sides redundant ponders begins tried
    split
    next blocks => exact afterBlocked_decided consistent removable ponders begins tried blocks
    next not =>
      have left : start.2.unblocked pivot = start.2.forms := if_neg not
      have purged : Purged start (start.2.unblocked pivot) after :=
        ⟨left ▸ ponders.engine ▸ .refl, ponders.own, by rw [ponders.engine], by rw [ponders.engine]⟩
      exact decideElimination_decided consistent removable ⟨sides, begins.chosen, tried⟩ purged
        (ponders.engine ▸ begins.splits) ⟨sides, begins.chosen, sides?_gate begins.chosen⟩

/-- The limits decide exactly about a variable. If the steps suffice, there are the sides
of the clauses that are left without the blocked ones, and the variable is eliminated if
and only if it was not passed over and the machine finds the limits kept. Where the counts
and the limits add up to words that means: no resolvent is too long, they are more than the
clauses by no more than the limit for one variable, and with what the run added before they
keep the limit for the run. -/
theorem eliminate_exactly_within_bounds {engine after : Engine} {tool toolAfter : Tool Eliminator}
    (consistent : engine.Consistent) (positivePivot : 0 < pivot)
    (small : 2 * pivot + 1 < UInt32.size) (removable : engine.isRemovable? pivot = some true)
    (ended : eliminate pivot (tool, engine) = .done touched (toolAfter, after))
    (enough : toolAfter.budget.isExhausted = false) :
    ∃ sides, (engine.Considers pivot → engine.Remains pivot sides) ∧
      (after.trail.Eliminated pivot ↔ engine.Considers pivot ∧
        Admitted engine.settings tool.own.grown sides.count
          (sides.resolvents engine.arena pivot)) ∧
      (sides.count + engine.settings.growth.toNat < UInt64.size →
        tool.own.grown.toNat + ((sides.resolvents engine.arena pivot).length - sides.count) <
          UInt64.size →
        (after.trail.Eliminated pivot ↔ engine.Considers pivot ∧
          WithinBounds engine.settings tool.own.grown sides.count
            (sides.resolvents engine.arena pivot))) := by
  have decided : (eliminate pivot).Ends (tool, engine) _ _ :=
    eliminate_decided (by exact consistent) positivePivot small (by exact removable)
  obtain ⟨sides, remains, decides⟩ := decided.done_of_eq ended enough
  refine ⟨sides, remains, decides, fun growth total => ?_⟩
  rw [decides, admitted_iff growth total]

/-- One resolvent takes the place of two clauses. -/
theorem eliminate_exactly_within_bounds_of_two :
    ∃ (engine after : Engine) (tool toolAfter : Tool Eliminator) (touched : List Nat),
      engine.Consistent ∧ engine.isRemovable? 1 = some true ∧
      eliminate 1 (tool, engine) = .done touched (toolAfter, after) ∧
      toolAfter.budget.isExhausted = false ∧ after.trail.Eliminated 1 ∧
      ∃ sides, engine.Remains 1 sides ∧ WithinBounds engine.settings tool.own.grown sides.count
        (sides.resolvents engine.arena 1) := by
  obtain ⟨_, start, made, isOpen, ⟨removable, grown, growth⟩, touched, ⟨toolAfter, after⟩, ended,
      enough, flags⟩ :
      (Simplifier.addClauses [[1, 2], [-1, 3]]).Returns (.ofVars {} 3) fun _ start =>
        start.engine.unsat = false ∧
          (start.engine.isRemovable? 1 = some true ∧ start.tools.elimination.own.grown = 0 ∧
            start.engine.settings.growth = 0) ∧
          (eliminate 1).Returns ({ start.tools.elimination with budget := { limit := 100 } },
            start.engine) fun _ after => after.1.budget.isExhausted = false ∧
              (after.2.trail.flags? 1).map VarFlags.eliminated = some true := by
    decide +kernel
  obtain ⟨ready, _⟩ := Simplifier.ready_of_ofClauses made (by decide) isOpen
  have gone : after.trail.Eliminated 1 := Option.map_eq_some_iff.1 flags
  obtain ⟨sides, remains, decides, exact_⟩ := eliminate_exactly_within_bounds
    ready.toConsistent (by decide) (by decide) removable ended enough
  have remains := remains (decides.1 gone).1
  have few := remains.few ready.toConsistent
  have short : 2 * (sides.resolvents start.engine.arena 1).length < UInt64.size :=
    two_mul_length_resolvents_lt few
  have size : UInt32.size = 4294967296 := rfl
  have wide : UInt64.size = 18446744073709551616 := rfl
  refine ⟨start.engine, after, _, toolAfter, touched, ready.toConsistent, removable, ended,
    enough, gone, sides, remains, ((exact_ ?_ ?_).1 gone).2⟩
  · rw [growth]
    change sides.count + 0 < _
    omega
  · change start.tools.elimination.own.grown.toNat + _ < _
    rw [grown]
    change 0 + _ < _
    omega

/-- With the greatest limit for one variable four clauses are not exchanged for four
resolvents: the sum of the clauses and the limit wraps round to three. -/
theorem eliminate_misses_greatest_growth :
    ∃ (engine after : Engine) (tool toolAfter : Tool Eliminator) (touched : List Nat)
      (sides : GateSides), engine.Consistent ∧ engine.isRemovable? 1 = some true ∧
      eliminate 1 (tool, engine) = .done touched (toolAfter, after) ∧
      toolAfter.budget.isExhausted = false ∧ engine.Considers 1 ∧ engine.Remains 1 sides ∧
      WithinBounds engine.settings tool.own.grown sides.count (sides.resolvents engine.arena 1) ∧
      ¬ after.trail.Eliminated 1 := by
  obtain ⟨_, start, made, ⟨isOpen, removable, stays, inRange, limit, grown⟩, evaluated, touched,
      ⟨toolAfter, after⟩, ended, enough, flags⟩ :
      (Simplifier.addClauses [[1, 2], [1, 3], [-1, 4], [-1, 5]]).Returns
        (.ofVars
          { growth := 18446744073709551615, gates := false, blockedDuringElimination := false } 5)
        fun _ start =>
        (start.engine.unsat = false ∧ start.engine.isRemovable? 1 = some true ∧
          start.engine.settings.blockedDuringElimination = false ∧ 1 ≤ start.engine.numVars ∧
          start.engine.settings.resolventLength = 80 ∧ start.tools.elimination.own.grown = 0) ∧
        ((start.engine.sides? 1).any fun sides => decide (passesOver start.engine sides = false ∧
          (∀ resolvent ∈ sides.resolvents start.engine.arena 1, resolvent.length = 2) ∧
          (sides.resolvents start.engine.arena 1).length = sides.count)) ∧
        (eliminate 1).Returns ({ start.tools.elimination with budget := { limit := 100 } },
          start.engine) fun _ after => after.1.budget.isExhausted = false ∧
            (after.2.trail.flags? 1).map VarFlags.eliminated = some false := by
    decide +kernel
  obtain ⟨sides, chosen, holds⟩ := (Option.any_eq_true _ _).1 evaluated
  obtain ⟨tried, lengths, same⟩ := of_decide_eq_true holds
  obtain ⟨ready, _⟩ := Simplifier.ready_of_ofClauses made (by decide) isOpen
  have remains := remains_of_sides? ready.toConsistent inRange (by decide) (by decide) stays chosen
  have within : WithinBounds start.engine.settings start.tools.elimination.own.grown sides.count
      (sides.resolvents start.engine.arena 1) := by
    refine ⟨fun resolvent member _ => ?_, ?_, ?_⟩
    · rw [lengths resolvent member, limit]
      decide
    · rw [same, sub_self]
      exact Int.natCast_nonneg _
    · rw [same, sub_self, grown]
      exact Int.natCast_nonneg _
  refine ⟨start.engine, after, _, toolAfter, touched, sides, ready.toConsistent, removable, ended,
    enough, ⟨sides, chosen, tried⟩, remains, within, ?_⟩
  rintro ⟨marks, found, isEliminated⟩
  rw [found, Option.map_some, isEliminated] at flags
  cases flags

end Eliminator

end CnfSimplifier
