import CnfSimplifier.Proofs.EliminationSafety
import CnfSimplifier.Proofs.GrowthBound
import CnfSimplifier.Proofs.Consistency
import Mathlib.Data.List.Forall2
import Mathlib.Data.List.Permutation

/-!
# What a gate search finds

The search for a gate is exact. A clause with an output is a gate if for each of its other literals
there is the binary clause of both complements on the other side; the search finds one if there is
one, on either side. Then the clause stands in front of its list, and the binary clauses stand in
front of the other list, one for each of its other literals. Several binary clauses may be equal
then; the first of them is taken.

The places of the binary clauses are known before any clause is moved. They are put in order first,
so a clause that gives way in front comes to a place that was already left.
-/
namespace CnfSimplifier.Gate

variable {engine : Engine} {arena : Arena} {output literal : Literal} {handle : Handle}
  {clause : Clause} {others : List Handle} {binaries : List (Literal × Nat)} {places : List Nat}

/-- A live clause of two literals. -/
def IsBinary (arena : Arena) (first second : Literal) (handle : Handle) : Prop :=
  ∃ clause, arena.live? handle = some clause ∧ clause.literals.Perm [first, second]

/-- Each literal but the output is excluded by a binary clause when the output is true. -/
def Excludes (arena : Arena) (output : Literal) (others : List Handle) (clause : Clause) : Prop :=
  ∀ literal ∈ clause.literals, literal ≠ output →
    ∃ other ∈ others, IsBinary arena output.complement literal.complement other

/-- A clause on the side of the output is the long clause of a gate. -/
def HasGate (arena : Arena) (output : Literal) (own others : List Handle) : Prop :=
  ∃ handle ∈ own, ∃ clause, arena.live? handle = some clause ∧ Excludes arena output others clause

/-- The first clause of one list and the first clauses of another one are a gate: one binary clause
for each literal but the output. Together they say that the output is the conjunction of the
complements of these literals. -/
def Fronts (arena : Arena) (output : Literal) (own others : Array Handle) (count : Nat) : Prop :=
  ∃ handle clause inputs, own[0]? = some handle ∧ arena.live? handle = some clause ∧
    output ∈ clause.literals ∧ inputs.Perm (clause.literals.filter fun l => l != output) ∧
    inputs.length = count ∧
    List.Forall₂ (fun literal other => IsBinary arena output.complement literal.complement other)
      inputs (others.toList.take count) ∧
    ∀ values, (ClauseHolds values clause.literals ∧ ∀ other ∈ others.toList.take count,
        ∀ binary, arena.live? other = some binary → ClauseHolds values binary.literals) ↔
      (output.Holds values ↔
        ∀ literal ∈ clause.literals, literal ≠ output → literal.complement.Holds values)

/-! ## The binary clauses -/

/-- Of a clause of two literals one is known, so the other one is what is left. -/
theorem isBinary_iff (live : arena.live? handle = some clause) (inside : output ∈ clause.literals) :
    IsBinary arena output literal handle ↔
      ∃ a b, clause.literals = [a, b] ∧ literal = if a = output then b else a := by
  have nodup : clause.literals.Nodup := Literal.nodup_of_pairwise_lt clause.sorted
  constructor
  · rintro ⟨same, liveSame, perm⟩
    obtain rfl : clause = same := Option.some.inj (live.symm.trans liveSame)
    obtain listed | listed := List.pair_perm.1 perm.symm
    · exact ⟨output, literal, listed, (if_pos rfl).symm⟩
    · refine ⟨literal, output, listed, (if_neg ?_).symm⟩
      rintro rfl
      simp [listed] at nodup
  · rintro ⟨a, b, pair, rfl⟩
    refine ⟨clause, live, ?_⟩
    rw [pair] at inside ⊢
    split
    next same => rw [same]
    next different =>
      obtain rfl : output = b := by simpa [Ne.symm different] using inside
      exact .swap output a []

/-- The entries are the binary clauses, at ascending places. -/
theorem binaries?_exact {handles : List Handle} (have_ : engine.AllHave output.complement handles)
    {start : Nat} {entries : List (Literal × Nat)}
    (listed : binaries? engine.arena output (handles.zipIdx start) = some entries) :
    (entries.map Prod.snd).Pairwise (· < ·) ∧ ∀ entry, entry ∈ entries ↔ start ≤ entry.2 ∧
      ∃ handle, handles[entry.2 - start]? = some handle ∧
        IsBinary engine.arena output.complement entry.1 handle := by
  induction handles generalizing start entries with
  | nil =>
    cases listed
    simp
  | cons handle rest ih =>
    obtain ⟨⟨clause, live, inside⟩, others⟩ := List.forall_mem_cons.1 have_
    rw [List.zipIdx_cons] at listed
    obtain ⟨same, lookedUp, listed⟩ := Option.bind_eq_some_iff.1 listed
    obtain rfl : clause = same := by
      rw [(Arena.live?_eq_some.1 live).1] at lookedUp
      exact Option.some.inj lookedUp
    obtain ⟨later, foundLater, listed⟩ := Option.bind_eq_some_iff.1 listed
    obtain ⟨ascending, exact_⟩ := ih others foundLater
    -- An entry is one of the clause in front or one of the others.
    have places : ∀ entry : Literal × Nat, (start ≤ entry.2 ∧
        ∃ other, (handle :: rest)[entry.2 - start]? = some other ∧
          IsBinary engine.arena output.complement entry.1 other) ↔
        (entry.2 = start ∧ IsBinary engine.arena output.complement entry.1 handle) ∨
          entry ∈ later := by
      intro entry
      rw [exact_ entry]
      by_cases first : entry.2 = start
      · simp [first]
      · constructor
        · rintro ⟨above, found⟩
          rw [show entry.2 - start = entry.2 - (start + 1) + 1 by omega,
            List.getElem?_cons_succ] at found
          exact .inr ⟨by omega, found⟩
        · rintro (⟨same, _⟩ | ⟨above, found⟩)
          · exact absurd same first
          · rw [show entry.2 - start = entry.2 - (start + 1) + 1 by omega,
              List.getElem?_cons_succ]
            exact ⟨by omega, found⟩
    have result := Option.some.inj listed
    split at result
    next a b pair =>
      subst result
      refine ⟨List.pairwise_cons.2 ⟨fun place member => ?_, ascending⟩, fun entry => ?_⟩
      · obtain ⟨entry, isEntry, rfl⟩ := List.mem_map.1 member
        exact ((exact_ entry).1 isEntry).1
      · rw [places entry, List.mem_cons, isBinary_iff live inside, pair]
        refine or_congr ?_ .rfl
        constructor
        · rintro rfl
          exact ⟨rfl, a, b, rfl, rfl⟩
        · rintro ⟨atStart, _, _, same, isOther⟩
          obtain ⟨rfl, rfl⟩ : a = _ ∧ b = _ := by simpa using same
          exact Prod.ext isOther atStart
    next notPair =>
      subst result
      refine ⟨ascending, fun entry => ?_⟩
      rw [places entry, isBinary_iff live inside]
      constructor
      · exact .inr
      · rintro (⟨_, a, b, pair, _⟩ | member)
        · exact absurd pair (notPair a b)
        · exact member

/-- The literals with an entry are those with a binary clause. -/
theorem lookup_isSome_iff (exact_ : ∀ entry, entry ∈ binaries ↔ 0 ≤ entry.2 ∧ ∃ handle,
      others[entry.2 - 0]? = some handle ∧ IsBinary arena output.complement entry.1 handle)
    (literal : Literal) : (binaries.lookup literal).isSome ↔
      ∃ other ∈ others, IsBinary arena output.complement literal other := by
  rw [List.lookup_isSome_iff]
  constructor
  · rintro ⟨entry, member, same⟩
    obtain ⟨_, handle, found, binary⟩ := (exact_ entry).1 member
    rw [eq_of_beq same]
    exact ⟨handle, List.mem_of_getElem? found, binary⟩
  · rintro ⟨other, member, binary⟩
    obtain ⟨place, found⟩ := List.mem_iff_getElem?.1 member
    exact ⟨(literal, place), (exact_ _).2 ⟨Nat.zero_le _, other, found, binary⟩, beq_self_eq_true _⟩

/-! ## The long clause -/

/-- A definition excludes all inputs at once. -/
theorem isDefinition_iff (lookup : ∀ literal, (binaries.lookup literal).isSome ↔
      ∃ other ∈ others, IsBinary arena output.complement literal other) :
    isDefinition output binaries clause = true ↔ Excludes arena output others clause := by
  unfold isDefinition Excludes
  simp only [List.all_eq_true, Bool.or_eq_true, decide_eq_true_eq, lookup, or_iff_not_imp_left]

/-- If no clause is found none is a defining one. -/
theorem not_isDefinition_of_find? {handles : List Handle} {start : Nat}
    (found : find? arena output binaries handles start = some none) (member : handle ∈ handles)
    (known : arena.get? handle = some clause) : ¬ isDefinition output binaries clause = true := by
  induction handles generalizing start with
  | nil => cases member
  | cons first rest ih =>
    obtain ⟨other, lookedUp, further⟩ := Option.bind_eq_some_iff.1 found
    split at further
    next => cases further
    next notDefinition =>
      obtain rfl | later := List.mem_cons.1 member
      · obtain rfl : other = clause := Option.some.inj (lookedUp.symm.trans known)
        exact notDefinition
      · exact ih further later

/-! ## The front -/

/-- Lists that match entry by entry are matched through a third. -/
theorem forall₂_trans {α β γ : Type} {first : α → β → Prop} {second : β → γ → Prop}
    {both : α → γ → Prop} {as : List α} {bs : List β} {cs : List γ} (left : List.Forall₂ first as bs)
    (right : List.Forall₂ second bs cs) (combines : ∀ a b c, first a b → second b c → both a c) :
    List.Forall₂ both as cs := by
  induction left generalizing cs with
  | nil =>
    cases right
    exact .nil
  | cons own _ ih =>
    cases right with
    | cons next others => exact .cons (combines _ _ _ own next) (ih others)

/-- Sorted entries belong to the keys in some order. -/
theorem exists_perm_forall₂ (keys : List Literal) (binaries : List (Literal × Nat))
    (known : ∀ literal ∈ keys, (binaries.lookup literal.complement).isSome)
    (perm : places.Perm (keys.filterMap fun literal => binaries.lookup literal.complement)) :
    ∃ inputs, inputs.Perm keys ∧ List.Forall₂
      (fun literal place => binaries.lookup literal.complement = some place) inputs places := by
  have matched : List.Forall₂
      (fun literal place => binaries.lookup literal.complement = some place) keys
      (keys.filterMap fun literal => binaries.lookup literal.complement) := by
    clear perm
    induction keys with
    | nil => exact .nil
    | cons first rest ih =>
      obtain ⟨own, others⟩ := List.forall_mem_cons.1 known
      obtain ⟨place, found⟩ := Option.isSome_iff_exists.1 own
      simp only [List.filterMap_cons, found]
      exact .cons found (ih others)
  have composed : Relation.Comp (List.Forall₂ fun literal place =>
      binaries.lookup literal.complement = some place) List.Perm keys places := ⟨_, matched, perm.symm⟩
  rw [List.forall₂_comp_perm_eq_perm_comp_forall₂] at composed
  obtain ⟨inputs, permInputs, ordered⟩ := composed
  exact ⟨inputs, permInputs.symm, ordered⟩

/-- What the places name stands in front in the order of the places. -/
theorem forall₂_take_moveToFront {items : Array Handle} (ascending : places.Pairwise (· < ·))
    (inside : ∀ place ∈ places, place < items.size) :
    List.Forall₂ (fun place handle => items[place]? = some handle) places
      ((moveToFront items places 0).toList.take places.length) := by
  obtain ⟨_, moved⟩ := moveToFront_spec ascending (fun _ _ => Nat.zero_le _) inside
  have front : ∀ (k : Nat) (small : k < places.length),
      (moveToFront items places 0).toList[k]? = items[places[k]]? := by
    intro k small
    rw [Array.getElem?_toList, ← moved k _ (List.getElem?_eq_getElem small), Nat.zero_add]
  have enough : places.length ≤ (moveToFront items places 0).toList.length := by
    refine not_lt.1 fun short => ?_
    have found := front _ short
    rw [List.getElem?_eq_none le_rfl, Array.getElem?_eq_getElem (inside _ (List.getElem_mem short))]
      at found
    cases found
  refine List.forall₂_iff_get.2 ⟨by rw [List.length_take]; omega, fun k small taken => ?_⟩
  rw [List.get_eq_getElem, List.get_eq_getElem, ← front k small, List.getElem_take]
  exact List.getElem?_eq_getElem _

/-- The binary clauses for some literals stand in front then, one for each of the literals. -/
theorem exists_inputs {literals : List Literal} {others : Array Handle}
    (ascending : (binaries.map Prod.snd).Pairwise (· < ·))
    (exact_ : ∀ entry, entry ∈ binaries ↔ 0 ≤ entry.2 ∧ ∃ handle,
      others.toList[entry.2 - 0]? = some handle ∧ IsBinary arena output.complement entry.1 handle)
    (present : OverVars literals) (nodup : literals.Nodup)
    (known : ∀ literal ∈ literals, (binaries.lookup literal.complement).isSome)
    (sorted : sortBy (fun a b => decide (a ≤ b))
      (literals.filterMap fun literal => binaries.lookup literal.complement) = places) :
    ∃ inputs, inputs.Perm literals ∧ inputs.length = places.length ∧ List.Forall₂
      (fun literal other => IsBinary arena output.complement literal.complement other) inputs
      ((moveToFront others places 0).toList.take places.length) := by
  have perm : places.Perm (literals.filterMap fun literal => binaries.lookup literal.complement) :=
    sorted ▸ sortBy_perm _
  obtain ⟨inputs, permInputs, matched⟩ := exists_perm_forall₂ literals binaries known perm
  have inOrder : places.Pairwise (· < ·) :=
    sorted ▸ ascending_of_nodup (nodup_inputs ascending present nodup)
  have inside : ∀ place ∈ places, place < others.size := by
    intro place member
    obtain ⟨literal, _, lookedUp⟩ := List.mem_filterMap.1 (perm.mem_iff.1 member)
    obtain ⟨_, _, found, _⟩ := (exact_ _).1 (mem_of_lookup lookedUp)
    simpa using (List.getElem?_eq_some_iff.1 found).1
  refine ⟨inputs, permInputs, matched.length_eq, ?_⟩
  refine forall₂_trans matched (forall₂_take_moveToFront inOrder inside)
    fun literal place handle lookedUp atPlace => ?_
  obtain ⟨_, other, found, binary⟩ := (exact_ _).1 (mem_of_lookup lookedUp)
  rw [Nat.sub_zero, Array.getElem?_toList, atPlace] at found
  obtain rfl := Option.some.inj found
  exact binary

/-! ## The search -/

/-- A clause of two literals or more has one besides the output. -/
theorem exists_other (two : 2 ≤ clause.literals.length) (output : Literal) :
    ∃ literal ∈ clause.literals, literal ≠ output := by
  have nodup : clause.literals.Nodup := Literal.nodup_of_pairwise_lt clause.sorted
  by_contra none_
  have only : clause.literals ⊆ [output] := fun literal member =>
    List.mem_singleton.2 (by_contra fun different => none_ ⟨literal, member, different⟩)
  have single := (List.subperm_of_subset nodup only).length_le
  rw [List.length_singleton] at single
  omega

/-- The clauses of a gate say that the output is the conjunction of the complements of the other
literals. -/
theorem holds_iff_conjunction {inputs : List Literal} (presentOutput : 0 < output.var)
    (present : ∀ literal ∈ clause.literals, 0 < literal.var) (inside : output ∈ clause.literals)
    (perm : inputs.Perm (clause.literals.filter fun l => l != output)) (matched : List.Forall₂
      (fun literal other => IsBinary arena output.complement literal.complement other) inputs others)
    (values : Assignment) :
    (ClauseHolds values clause.literals ∧ ∀ other ∈ others,
        ∀ binary, arena.live? other = some binary → ClauseHolds values binary.literals) ↔
      (output.Holds values ↔
        ∀ literal ∈ clause.literals, literal ≠ output → literal.complement.Holds values) := by
  have isInput : ∀ literal, literal ∈ inputs ↔ literal ∈ clause.literals ∧ literal ≠ output := by
    intro literal
    rw [perm.mem_iff, List.mem_filter, bne_iff_ne]
  have binaries : (∀ other ∈ others, ∀ binary, arena.live? other = some binary →
      ClauseHolds values binary.literals) ↔
      ∀ literal ∈ inputs, output.Holds values → literal.complement.Holds values := by
    have single : ∀ {literal : Literal} {other : Handle},
        IsBinary arena output.complement literal.complement other →
        ((∀ binary, arena.live? other = some binary → ClauseHolds values binary.literals) ↔
          (output.Holds values → literal.complement.Holds values)) := by
      rintro literal other ⟨binary, liveOther, pair⟩
      have holds : ClauseHolds values binary.literals ↔
          (output.Holds values → literal.complement.Holds values) := by
        rw [clauseHolds_iff_of_mem fun _ => pair.mem_iff, imp_iff_not_or,
          ← Literal.holds_complement presentOutput]
        simp [ClauseHolds]
      rw [liveOther]
      constructor
      · exact fun all => holds.1 (all binary rfl)
      · rintro implies _ ⟨⟩
        exact holds.2 implies
    clear perm isInput
    induction matched with
    | nil => simp
    | cons own _ ih =>
      rw [List.forall_mem_cons, List.forall_mem_cons]
      exact and_congr (single own) ih
  rw [binaries]
  constructor
  · rintro ⟨⟨literal, member, holds⟩, implied⟩
    constructor
    · intro holdsOutput other inClause different
      exact implied other ((isInput other).2 ⟨inClause, different⟩) holdsOutput
    · intro all
      by_contra fails
      have different : literal ≠ output := fun same => fails (same ▸ holds)
      exact (Literal.holds_complement (present literal member)).1 (all literal member different) holds
  · intro iff
    refine ⟨?_, fun literal member holdsOutput =>
      iff.1 holdsOutput literal ((isInput literal).1 member).1 ((isInput literal).1 member).2⟩
    by_cases holds : output.Holds values
    · exact ⟨output, inside, holds⟩
    · have notAll := fun all => holds (iff.2 all)
      obtain ⟨literal, member, fails⟩ : ∃ literal ∈ clause.literals,
          ¬ literal.complement.Holds values := by
        by_contra none_
        exact notAll fun literal member _ => by_contra fun fails => none_ ⟨literal, member, fails⟩
      rw [Literal.holds_complement (present literal member), not_not] at fails
      exact ⟨literal, member, fails⟩

/-- On one side a gate is found exactly if there is one. -/
theorem onOutput?_exact (formed : ∀ clause ∈ engine.arena.liveClauses,
      FormedOver engine.numVars clause.literals)
    {withOutput withComplement first second : Array Handle} {found : Option Nat}
    (presentOutput : 0 < output.var) (haveOutput : engine.AllHave output withOutput.toList)
    (haveComplement : engine.AllHave output.complement withComplement.toList)
    (searched : onOutput? engine.arena output withOutput withComplement =
      some (first, second, found)) :
    (found = none ↔ ¬ HasGate engine.arena output withOutput.toList withComplement.toList) ∧
      ∀ count, found = some count → Fronts engine.arena output first second count := by
  obtain ⟨binaries, listed, further⟩ := Option.bind_eq_some_iff.1 searched
  obtain ⟨ascending, exact_⟩ := binaries?_exact haveComplement listed
  have lookup := lookup_isSome_iff exact_
  split at further
  next empty =>
    cases further
    refine ⟨⟨fun _ => ?_, fun _ => rfl⟩, by rintro _ ⟨⟩⟩
    rintro ⟨handle, member, clause, live, excludes⟩
    -- A clause has another literal, and there is no binary clause for it.
    obtain ⟨two, _, _, _⟩ := formed clause (Arena.mem_liveClauses_of_live? live)
    obtain ⟨literal, inClause, different⟩ := exists_other two output
    have found := (lookup literal.complement).2 (excludes literal inClause different)
    rw [List.isEmpty_iff.1 empty] at found
    cases found
  next =>
  obtain ⟨defining, lookedFor, further⟩ := Option.bind_eq_some_iff.1 further
  split at further
  next =>
    cases further
    refine ⟨⟨fun _ => ?_, fun _ => rfl⟩, by rintro _ ⟨⟩⟩
    rintro ⟨handle, member, clause, live, excludes⟩
    exact not_isDefinition_of_find? lookedFor member (Arena.live?_eq_some.1 live).1
      ((isDefinition_iff lookup).2 excludes)
  next place clause =>
    cases further
    obtain ⟨_, ⟨handle, atPlace, known⟩, defines⟩ := find?_spec lookedFor
    have member := List.mem_of_getElem? atPlace
    obtain ⟨same, live, inside⟩ := haveOutput handle member
    obtain rfl : same = clause := by
      rw [(Arena.live?_eq_some.1 live).1] at known
      exact Option.some.inj known
    have excludes := (isDefinition_iff lookup).1 defines
    refine ⟨⟨by rintro ⟨⟩, fun none_ => absurd ⟨handle, member, same, live, excludes⟩ none_⟩, ?_⟩
    rintro _ ⟨⟩
    have present : ∀ literal ∈ same.literals, 0 < literal.var := fun literal inClause =>
      ((formed same (Arena.mem_liveClauses_of_live? live)).inRange literal inClause).1
    obtain ⟨inputs, perm, length, pairs⟩ := exists_inputs ascending exact_
      (fun literal member => present literal (List.mem_filter.1 member).1)
      ((Literal.nodup_of_pairwise_lt same.sorted).filter fun l => l != output)
      (fun literal member => by
        obtain ⟨inClause, different⟩ := List.mem_filter.1 member
        exact (lookup _).2 (excludes literal inClause (bne_iff_ne.1 different))) rfl
    have atFront : withOutput[place]? = some handle := by simpa using atPlace
    have insidePlace := (Array.getElem?_eq_some_iff.1 atFront).1
    refine ⟨handle, same, inputs, ?_, live, inside, perm, length, pairs,
      holds_iff_conjunction presentOutput present inside perm pairs⟩
    rw [getElem?_swapIfInBounds (by omega) insidePlace, if_pos rfl, atFront]

/-- The search for a gate of a variable is exact, and it only rearranges the clauses: a gate is found
exactly if one of the literals of the variable has one. If the positive literal has one it is that,
else it is one of the negative literal. The numbers tell how many clauses of each side belong to it:
the long one of one side, and one binary clause on the other side for each other literal. -/
theorem searchGate_exact {name : Nat} {positive negative : Array Handle}
    (formed : ∀ clause ∈ engine.arena.liveClauses, FormedOver engine.numVars clause.literals)
    (present : 0 < name) (small : name < 2 ^ 31)
    (havePositive : engine.AllHave (Literal.ofVar name true) positive.toList)
    (haveNegative : engine.AllHave (Literal.ofVar name true).complement negative.toList) :
    (Eliminator.searchGate name positive negative).Returns engine fun sides after =>
      after = engine ∧
      sides.positive.toList.Perm positive.toList ∧ sides.negative.toList.Perm negative.toList ∧
      (sides.gate = none ↔
        ¬ HasGate engine.arena (.ofVar name true) positive.toList negative.toList ∧
        ¬ HasGate engine.arena (Literal.ofVar name true).complement negative.toList
          positive.toList) ∧
      ∀ i j, sides.gate = some (i, j) →
        (HasGate engine.arena (.ofVar name true) positive.toList negative.toList ∧ i = 1 ∧
          Fronts engine.arena (.ofVar name true) sides.positive sides.negative j) ∨
        (¬ HasGate engine.arena (.ofVar name true) positive.toList negative.toList ∧ j = 1 ∧
          Fronts engine.arena (Literal.ofVar name true).complement sides.negative sides.positive
            i) := by
  have var : (Literal.ofVar name true).var = name :=
    Literal.var_ofVar present (by simp only [UInt32.size]; omega)
  have presentOutput : 0 < (Literal.ofVar name true).var := by rwa [var]
  have presentComplement : 0 < (Literal.ofVar name true).complement.var := by
    rwa [Literal.var_complement presentOutput]
  have stored : ∀ {literal : Literal} {handles : List Handle}, engine.AllHave literal handles →
      ∀ handle ∈ handles, ∃ clause, engine.arena.get? handle = some clause := by
    intro literal handles have_ handle member
    obtain ⟨clause, live, _⟩ := have_ handle member
    exact ⟨clause, (Arena.live?_eq_some.1 live).1⟩
  obtain ⟨sides, searched⟩ : ∃ sides, search? engine.arena name positive negative = some sides :=
    exists_search? (stored havePositive) (stored haveNegative)
  obtain ⟨permPositive, permNegative⟩ := search?_perm searched
  refine .of_done (Run.read_of_eq_some searched) ⟨rfl, permPositive, permNegative, ?_⟩
  unfold search? at searched
  generalize Literal.ofVar name true = output at *
  obtain ⟨⟨first, second, found⟩, onFirst, further⟩ := Option.bind_eq_some_iff.1 searched
  obtain ⟨none_, fronts⟩ := onOutput?_exact formed presentOutput havePositive haveNegative onFirst
  dsimp only at further
  split at further
  next count =>
    cases further
    have hasGate : HasGate engine.arena output positive.toList negative.toList := by
      by_contra without
      cases none_.2 without
    refine ⟨⟨by rintro ⟨⟩, fun without => absurd hasGate without.1⟩, ?_⟩
    rintro _ _ ⟨⟩
    exact .inl ⟨hasGate, rfl, fronts _ rfl⟩
  next =>
    have without := none_.1 rfl
    obtain ⟨⟨first, second, found⟩, onSecond, further⟩ := Option.bind_eq_some_iff.1 further
    rw [← Literal.complement_complement presentOutput] at havePositive
    obtain ⟨none_, fronts⟩ :=
      onOutput?_exact formed presentComplement haveNegative havePositive onSecond
    cases further
    refine ⟨?_, fun i j gate => ?_⟩
    · rw [Option.map_eq_none_iff, none_]
      exact (and_iff_right without).symm
    · obtain ⟨count, isFound, pair⟩ := Option.map_eq_some_iff.1 gate
      cases pair
      exact .inr ⟨without, rfl, fronts _ isFound⟩

/-- Of the clauses `1 4`, `1 -3`, `1 -2` and `-1 2 3` the last three define the variable. -/
theorem searchGate_exact_negative : ∃ (engine : Engine) (sides : GateSides),
    Eliminator.searchGate 1 #[⟨0, 0⟩, ⟨0, 1⟩, ⟨0, 2⟩] #[⟨0, 3⟩] engine = .done sides engine ∧
      sides.positive = #[⟨0, 1⟩, ⟨0, 2⟩, ⟨0, 0⟩] ∧ sides.gate = some (2, 1) ∧
      Fronts engine.arena (Literal.ofVar 1 true).complement sides.negative sides.positive 2 := by
  obtain ⟨_, made, _, formed, positive, negative, _, _, searched, order, gate⟩ :
      (Simplifier.addClauses [[1, 4], [1, -3], [1, -2], [-1, 2, 3]]).Returns (.ofVars {} 4)
        fun _ made =>
          (∀ clause ∈ made.engine.arena.liveClauses,
            FormedOver made.engine.numVars clause.literals) ∧
          (∀ handle ∈ [(⟨0, 0⟩ : Handle), ⟨0, 1⟩, ⟨0, 2⟩],
            made.engine.arena.holds handle (.ofVar 1 true) = true) ∧
          (∀ handle ∈ [(⟨0, 3⟩ : Handle)],
            made.engine.arena.holds handle (Literal.ofVar 1 true).complement = true) ∧
          (Eliminator.searchGate 1 #[⟨0, 0⟩, ⟨0, 1⟩, ⟨0, 2⟩] #[⟨0, 3⟩]).Returns made.engine
            fun sides _ => sides.positive = #[⟨0, 1⟩, ⟨0, 2⟩, ⟨0, 0⟩] ∧
              sides.gate = some (2, 1) := by
    decide +kernel
  obtain ⟨sides, after, found, same, _, _, _, fronts⟩ :=
    searchGate_exact formed Nat.one_pos (by decide)
      (fun handle member => Arena.holds_iff.1 (positive handle member))
      (fun handle member => Arena.holds_iff.1 (negative handle member))
  subst same
  cases searched.symm.trans found
  obtain ⟨_, impossible, _⟩ | ⟨_, _, fronts⟩ := fronts 2 1 gate
  · cases impossible
  · exact ⟨_, _, found, order, gate, fronts⟩

end CnfSimplifier.Gate
