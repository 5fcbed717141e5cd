import CnfSimplifier.Gate
import CnfSimplifier.Proofs.Resolution

/-!
# Gates that define a variable

The clauses that a gate search moves to the front are a definition: whatever the
values of the other variables, the defining clauses of exactly one side hold apart
from the variable. So it is enough to resolve defining clauses with others.
-/
namespace CnfSimplifier

namespace Engine

variable {engine : Engine} {literal : Literal} {handle : Handle} {clause : Clause}

/-- Handles of live clauses that have a literal. -/
def AllHave (engine : Engine) (literal : Literal) (handles : List Handle) : Prop :=
  ∀ handle ∈ handles, ∃ clause, engine.arena.live? handle = some clause ∧
    literal ∈ clause.literals

/-- The clauses of handles hold apart from a variable. -/
def AllApart (engine : Engine) (pivot : Nat) (values : Assignment) (handles : List Handle) : Prop :=
  ∀ handle ∈ handles, ∀ clause, engine.arena.live? handle = some clause →
    HoldsApart pivot values clause.literals

/-- A live clause has the form of a clause. -/
theorem Sound.admits [Realm] (sound : engine.Sound) (live : engine.arena.live? handle = some clause) :
    engine.picture.Admits clause.literals :=
  sound.wellFormed.admits _ (Arena.contents_of_live live)

end Engine

namespace Gate

variable {engine : Engine} {output : Literal} {values : Assignment} {handle : Handle}
  {clause : Clause} {handles : List Handle} {entries : List (Literal × Nat)}
  {binaries : List (Literal × Nat)} {items : Array Handle} {places : List Nat}

/-! ## The binary clauses -/

/-- An entry for a binary clause: the other literal and the place of the clause. -/
def Notes (engine : Engine) (output : Literal) (handles : List Handle)
    (entry : Literal × Nat) : Prop :=
  ∃ handle clause, handles[entry.2]? = some handle ∧ engine.arena.live? handle = some clause ∧
    ∀ values, HoldsApart output.var values clause.literals ↔ entry.1.Holds values

/-- In a binary clause of the complement the other literal decides. -/
theorem holdsApart_pair [Realm] (sound : engine.Sound) {a b : Literal}
    (live : engine.arena.live? handle = some clause) (present : 0 < output.var)
    (inside : output.complement ∈ clause.literals) (pair : clause.literals = [a, b]) :
    HoldsApart output.var values clause.literals ↔
      (if a = output.complement then b else a).Holds values := by
  have admits := sound.admits live
  have nodup := admits.nodup
  have only : ∀ other ∈ clause.literals, other ≠ output.complement → other.var ≠ output.var := by
    intro other member different same
    refine different ((sound.admits live).eq_of_var inside member ?_)
    rw [same, Literal.var_complement present]
  have own : output.complement.var = output.var := Literal.var_complement present
  rw [pair] at inside only nodup ⊢
  unfold HoldsApart
  grind

/-- The entries are binary clauses at ascending places. -/
theorem binaries?_spec [Realm] (sound : engine.Sound) (present : 0 < output.var)
    (have_ : engine.AllHave output.complement handles) {start : Nat}
    (found : binaries? engine.arena output (handles.zipIdx start) = some entries) :
    (entries.map Prod.snd).Pairwise (· < ·) ∧ ∀ entry ∈ entries, start ≤ entry.2 ∧
      Notes engine output handles (entry.1, entry.2 - start) := by
  induction handles generalizing start entries with
  | nil =>
    cases found
    simp
  | cons handle rest ih =>
    obtain ⟨own, others⟩ := List.forall_mem_cons.1 have_
    rw [List.zipIdx_cons] at found
    obtain ⟨clause, lookedUp, found⟩ := Option.bind_eq_some_iff.1 found
    obtain ⟨later, foundLater, found⟩ := Option.bind_eq_some_iff.1 found
    obtain ⟨ascending, notes⟩ := ih others foundLater
    have notesLater : ∀ entry ∈ later, start + 1 ≤ entry.2 ∧
        Notes engine output (handle :: rest) (entry.1, entry.2 - start) := by
      intro entry member
      obtain ⟨above, other, clause, atPlace, noted⟩ := notes entry member
      refine ⟨above, other, clause, ?_, noted⟩
      have next : entry.2 - start = (entry.2 - (start + 1)) + 1 := by omega
      change (handle :: rest)[entry.2 - start]? = some other
      rw [next, List.getElem?_cons_succ]
      exact atPlace
    obtain ⟨same, live, inside⟩ := own
    obtain rfl : same = clause := by
      rw [(Arena.live?_eq_some.1 live).1] at lookedUp
      exact Option.some.inj lookedUp
    have result := Option.some.inj found
    split at result
    next a b pair =>
      subst result
      refine ⟨List.pairwise_cons.2 ⟨fun place member => ?_, ascending⟩,
        List.forall_mem_cons.2 ⟨⟨le_refl _, handle, same, ?_, live, fun values => ?_⟩, ?_⟩⟩
      · obtain ⟨entry, isEntry, rfl⟩ := List.mem_map.1 member
        exact (notesLater entry isEntry).1
      · change (handle :: rest)[start - start]? = some handle
        rw [Nat.sub_self]
        rfl
      · exact holdsApart_pair sound live present inside pair
      · exact fun entry member => ⟨by have := (notesLater entry member).1; omega,
          (notesLater entry member).2⟩
    next =>
      subst result
      exact ⟨ascending, fun entry member => ⟨by have := (notesLater entry member).1; omega,
        (notesLater entry member).2⟩⟩

/-- The clause found is a defining one. -/
theorem find?_spec {arena : Arena} {start place : Nat}
    (found : find? arena output binaries handles start = some (some (place, clause))) :
    start ≤ place ∧ (∃ handle, handles[place - start]? = some handle ∧
      arena.get? handle = some clause) ∧ isDefinition output binaries clause = true := by
  induction handles generalizing start with
  | nil => cases found
  | cons handle rest ih =>
    obtain ⟨other, lookedUp, further⟩ := Option.bind_eq_some_iff.1 found
    split at further
    next defines =>
      obtain ⟨rfl, rfl⟩ := Prod.mk.inj (Option.some.inj (Option.some.inj further))
      refine ⟨le_refl _, ⟨handle, ?_, lookedUp⟩, defines⟩
      rw [Nat.sub_self]
      rfl
    next =>
      obtain ⟨above, ⟨at_, atPlace, known⟩, defines⟩ := ih further
      refine ⟨by omega, ⟨at_, ?_, known⟩, defines⟩
      have next : place - start = (place - (start + 1)) + 1 := by omega
      rw [next, List.getElem?_cons_succ]
      exact atPlace

/-! ## Moving to the front -/

/-- Moving clauses to the front reorders them. -/
theorem moveToFront_perm (items : Array Handle) (places : List Nat) (front : Nat) :
    (moveToFront items places front).toList.Perm items.toList := by
  induction places generalizing items front with
  | nil => exact .refl _
  | cons place rest ih =>
    refine (ih _ _).trans ?_
    rw [Array.swapIfInBounds_def]
    split
    · split
      · exact Array.Perm.toList (Array.swap_perm _ _)
      · exact .refl _
    · exact .refl _

theorem getElem?_swapIfInBounds {i j : Nat} (first : i < items.size) (second : j < items.size)
    (k : Nat) : (items.swapIfInBounds i j)[k]? =
      if k = i then items[j]? else if k = j then items[i]? else items[k]? := by
  rw [Array.swapIfInBounds_def, dif_pos first, dif_pos second, Array.getElem?_swap]
  split
  next same =>
    subst same
    split <;> simp_all
  next => grind

/-- Ascending places are moved to the front in their order, and what was in front
stays. -/
theorem moveToFront_spec {front : Nat} (ascending : places.Pairwise (· < ·))
    (above : ∀ place ∈ places, front ≤ place) (inside : ∀ place ∈ places, place < items.size) :
    (∀ i, i < front → (moveToFront items places front)[i]? = items[i]?) ∧
      ∀ k place, places[k]? = some place →
        (moveToFront items places front)[front + k]? = items[place]? := by
  induction places generalizing items front with
  | nil => simp [moveToFront]
  | cons place rest ih =>
    obtain ⟨below, ascending⟩ := List.pairwise_cons.1 ascending
    obtain ⟨aboveOwn, _⟩ := List.forall_mem_cons.1 above
    obtain ⟨insideOwn, insideRest⟩ := List.forall_mem_cons.1 inside
    have swapped : ∀ i, i < front ∨ place < i →
        (items.swapIfInBounds front place)[i]? = items[i]? := by
      intro i away
      rw [getElem?_swapIfInBounds (by omega) insideOwn, if_neg (by omega), if_neg (by omega)]
    have aboveRest : ∀ other ∈ rest, front + 1 ≤ other := by
      intro other member
      have := below other member
      omega
    have insideSwapped : ∀ other ∈ rest, other < (items.swapIfInBounds front place).size := by
      simpa using insideRest
    obtain ⟨stays, moved⟩ := ih ascending aboveRest insideSwapped
    refine ⟨fun i before => ?_, fun k other atPlace => ?_⟩
    · rw [moveToFront, stays i (by omega), swapped i (.inl before)]
    · cases k with
      | zero =>
        obtain rfl := Option.some.inj atPlace
        refine (stays front (Nat.lt_succ_self front)).trans ?_
        rw [getElem?_swapIfInBounds (by omega) insideOwn, if_pos rfl]
      | succ k =>
        have later : rest[k]? = some other := by simpa using atPlace
        rw [moveToFront, show front + (k + 1) = front + 1 + k by omega, moved k other later,
          swapped other (.inr (below other (List.mem_of_getElem? later)))]

/-- What stands in front at the end. -/
theorem mem_take_moveToFront [Realm] (ascending : places.Pairwise (· < ·))
    (inside : ∀ place ∈ places, place < items.size) :
    handle ∈ (moveToFront items places 0).toList.take places.length ↔
      ∃ place ∈ places, items[place]? = some handle := by
  obtain ⟨_, moved⟩ := moveToFront_spec ascending (fun _ _ => Nat.zero_le _) inside
  have front : ∀ k place : Nat, places[k]? = some place →
      (moveToFront items places 0).toList[k]? = items[place]? := by
    intro k place atPlace
    rw [Array.getElem?_toList, ← moved k place atPlace, Nat.zero_add]
  rw [List.mem_iff_getElem?]
  constructor
  · rintro ⟨k, found⟩
    rw [List.getElem?_take] at found
    split at found
    next small =>
      have atPlace := List.getElem?_eq_getElem small
      rw [front k _ atPlace] at found
      exact ⟨_, List.getElem_mem small, found⟩
    next => cases found
  · rintro ⟨place, member, found⟩
    obtain ⟨k, atPlace⟩ := List.mem_iff_getElem?.1 member
    refine ⟨k, ?_⟩
    have small : k < places.length := (List.getElem?_eq_some_iff.1 atPlace).1
    rw [List.getElem?_take, if_pos small, front k place atPlace, found]

/-! ## The search -/

/-- What is looked up is an entry. -/
theorem mem_of_lookup {literal : Literal} {place : Nat}
    (found : entries.lookup literal = some place) : (literal, place) ∈ entries := by
  induction entries with
  | nil => cases found
  | cons entry rest ih =>
    obtain ⟨other, at_⟩ := entry
    rw [List.lookup_cons] at found
    split at found
    next same =>
      obtain rfl := eq_of_beq same
      obtain rfl := Option.some.inj found
      exact List.mem_cons_self
    next => exact .tail _ (ih found)

/-- Of a place there is at most one entry. -/
theorem entry_eq_of_place (ascending : (entries.map Prod.snd).Pairwise (· < ·)) {a b : Literal}
    {place : Nat} (first : (a, place) ∈ entries) (second : (b, place) ∈ entries) : a = b := by
  have nodup : (entries.map Prod.snd).Nodup := ascending.imp fun below => Nat.ne_of_lt below
  have same : (a, place) = (b, place) := List.inj_on_of_nodup_map nodup first second rfl
  exact congrArg Prod.fst same

/-- Different places in order ascend strictly. -/
theorem ascending_of_nodup (nodup : places.Nodup) :
    (sortBy (fun a b => decide (a ≤ b)) places).Pairwise (· < ·) := by
  have sorted : (sortBy (fun a b => decide (a ≤ b)) places).Pairwise fun a b => decide (a ≤ b) = true :=
    pairwise_sortBy (fun a b c => by simpa using Nat.le_trans)
      (fun a b => by simpa using Nat.le_total a b) places
  have distinct : (sortBy (fun a b => decide (a ≤ b)) places).Nodup :=
    (sortBy_perm places).nodup_iff.2 nodup
  refine (sorted.and distinct).imp fun {a b} both => ?_
  exact lt_of_le_of_ne (of_decide_eq_true both.1) both.2

/-- The places of the defining binary clauses are distinct. -/
theorem nodup_inputs (ascending : (entries.map Prod.snd).Pairwise (· < ·)) {literals : List Literal}
    (present : OverVars literals) (nodup : literals.Nodup) :
    (literals.filterMap fun l => entries.lookup l.complement).Nodup := by
  refine List.pairwise_filterMap.2 (nodup.imp_of_mem ?_)
  intro a b inA inB different place first place' second same
  subst same
  have complements := entry_eq_of_place ascending (mem_of_lookup first) (mem_of_lookup second)
  refine different ?_
  rw [← Literal.complement_complement (present a inA), complements,
    Literal.complement_complement (present b inB)]

/-- Whether a literal other than the output is false is told by a binary clause. -/
theorem exists_input {literal : Literal} (defines : isDefinition output binaries clause = true)
    (member : literal ∈ clause.literals) (different : literal ≠ output) :
    ∃ place, binaries.lookup literal.complement = some place := by
  have either := List.all_eq_true.1 defines literal member
  simp only [Bool.or_eq_true, decide_eq_true_eq] at either
  exact Option.isSome_iff_exists.1 (either.resolve_left different)

/-- The defining clause holds apart from the variable exactly if not all the binary
ones do. -/
theorem holdsApart_iff_not_inputs [Realm] (sound : engine.Sound)
    (live : engine.arena.live? handle = some clause) (inside : output ∈ clause.literals)
    (notes : ∀ entry ∈ binaries, Notes engine output handles entry)
    (defines : isDefinition output binaries clause = true) :
    HoldsApart output.var values clause.literals ↔
      ¬ ∀ place ∈ (clause.literals.filter fun l => l != output).filterMap
          (fun l => binaries.lookup l.complement),
        ∀ other, handles[place]? = some other → ∀ binary, engine.arena.live? other = some binary →
          HoldsApart output.var values binary.literals := by
  have admits := sound.admits live
  constructor
  · rintro ⟨literal, member, different, holds⟩ all
    have notOutput : literal ≠ output := fun same => different (congrArg Literal.var same)
    obtain ⟨place, found⟩ := exists_input defines member notOutput
    obtain ⟨other, binary, atPlace, liveOther, decides⟩ := notes _ (mem_of_lookup found)
    have isInput : place ∈ (clause.literals.filter fun l => l != output).filterMap
        (fun l => binaries.lookup l.complement) := by
      refine List.mem_filterMap.2 ⟨literal, List.mem_filter.2 ⟨member, ?_⟩, found⟩
      simpa using notOutput
    have complementHolds := (decides values).1 (all place isInput other atPlace binary liveOther)
    exact (Literal.holds_complement (admits.present literal member).1).1 complementHolds holds
  · intro notAll
    by_contra notApart
    refine notAll fun place isInput other atPlace binary liveOther => ?_
    obtain ⟨literal, filtered, found⟩ := List.mem_filterMap.1 isInput
    obtain ⟨member, notOutput⟩ := List.mem_filter.1 filtered
    obtain ⟨noted, known, atNoted, liveNoted, decides⟩ := notes _ (mem_of_lookup found)
    obtain rfl : noted = other := Option.some.inj (atNoted.symm.trans atPlace)
    obtain rfl : known = binary := Option.some.inj (liveNoted.symm.trans liveOther)
    refine (decides values).2 ((Literal.holds_complement (admits.present literal member).1).2 ?_)
    intro holds
    refine notApart ⟨literal, member, fun same => ?_, holds⟩
    have equal := (sound.admits live).eq_of_var inside member same
    simp [equal] at notOutput

/-- A gate found for an output: the defining clauses in front of exactly one list
hold apart from its variable. -/
theorem onOutput?_spec [Realm] (sound : engine.Sound) (present : 0 < output.var)
    {withOutput withComplement first second : Array Handle} {found : Option Nat}
    (haveOutput : engine.AllHave output withOutput.toList)
    (haveComplement : engine.AllHave output.complement withComplement.toList)
    (searched : onOutput? engine.arena output withOutput withComplement =
      some (first, second, found)) :
    first.toList.Perm withOutput.toList ∧ second.toList.Perm withComplement.toList ∧
      ∀ count, found = some count → ∀ values,
        (engine.AllApart output.var values (first.toList.take 1) ↔
          ¬ engine.AllApart output.var values (second.toList.take count)) := by
  obtain ⟨binaries, listed, further⟩ := Option.bind_eq_some_iff.1 searched
  obtain ⟨ascending, notes⟩ := binaries?_spec sound present haveComplement listed
  split at further
  next =>
    cases further
    simp
  next =>
  obtain ⟨defining, lookedFor, further⟩ := Option.bind_eq_some_iff.1 further
  split at further
  next =>
    cases further
    simp
  next place clause =>
    cases further
    obtain ⟨_, ⟨handle, atPlace, known⟩, defines⟩ := find?_spec lookedFor
    obtain ⟨same, live, inside⟩ := haveOutput handle (List.mem_of_getElem? atPlace)
    obtain rfl : same = clause := by
      rw [(Arena.live?_eq_some.1 live).1] at known
      exact Option.some.inj known
    refine ⟨moveToFront_perm withOutput [place] 0, moveToFront_perm _ _ _, ?_⟩
    rintro _ ⟨⟩ values
    have notes : ∀ entry ∈ binaries, Notes engine output withComplement.toList entry :=
      fun entry member => (notes entry member).2
    generalize collected : (same.literals.filter fun l => l != output).filterMap
      (fun l => binaries.lookup l.complement) = inputs
    have ascendingInputs : (sortBy (fun a b => decide (a ≤ b)) inputs).Pairwise (· < ·) := by
      have admits := sound.admits live
      have nodup : inputs.Nodup := collected ▸ nodup_inputs ascending
        (fun l member => (admits.present l (List.mem_filter.1 member).1).1) (admits.nodup.filter _)
      exact ascending_of_nodup nodup
    have insideInputs : ∀ input ∈ sortBy (fun a b => decide (a ≤ b)) inputs,
        input < withComplement.size := by
      intro input member
      obtain ⟨literal, _, lookedUp⟩ :=
        List.mem_filterMap.1 (collected ▸ mem_sortBy.1 member)
      obtain ⟨_, _, atInput, _⟩ := notes _ (mem_of_lookup lookedUp)
      simpa using (List.getElem?_eq_some_iff.1 atInput).1
    have frontOutput : engine.AllApart output.var values
        ((withOutput.swapIfInBounds 0 place).toList.take 1) ↔
          HoldsApart output.var values same.literals := by
      have atFront : withOutput[place]? = some handle := by simpa using atPlace
      have insidePlace : ∀ other ∈ [place], other < withOutput.size := by
        simpa using (Array.getElem?_eq_some_iff.1 atFront).1
      have front : ∀ other, other ∈ (withOutput.swapIfInBounds 0 place).toList.take 1 ↔
          ∃ spot ∈ [place], withOutput[spot]? = some other := fun other =>
        mem_take_moveToFront (List.pairwise_singleton (· < ·) place) insidePlace
      constructor
      · intro all
        exact all handle ((front handle).2 ⟨place, List.mem_singleton_self _, atFront⟩) same live
      · intro apart other member clause liveOther
        obtain ⟨_, single, found⟩ := (front other).1 member
        rw [List.mem_singleton.1 single, atFront, Option.some.injEq] at found
        rw [← found, live, Option.some.injEq] at liveOther
        rwa [← liveOther]
    rw [frontOutput, holdsApart_iff_not_inputs sound live inside notes defines, collected]
    refine not_congr ?_
    unfold Engine.AllApart
    simp only [mem_take_moveToFront ascendingInputs insideInputs, mem_sortBy,
      Array.getElem?_toList]
    constructor
    · rintro all other ⟨input, isInput, atInput⟩
      exact all input isInput other atInput
    · exact fun all input isInput other atInput => all other ⟨input, isInput, atInput⟩

/-- The sides of a variable after a gate search, with the same clauses as before.
If there is a gate, its clauses define the variable. -/
structure Defines (engine : Engine) (pivot : Nat) (positive negative : Array Handle)
    (sides : GateSides) : Prop where
  positive : sides.positive.toList.Perm positive.toList
  negative : sides.negative.toList.Perm negative.toList
  exact : ∀ count counter, sides.gate = some (count, counter) → ∀ values,
    (engine.AllApart pivot values (sides.positive.toList.take count) ↔
      ¬ engine.AllApart pivot values (sides.negative.toList.take counter))

/-- A search finds definitions. -/
theorem search?_spec [Realm] (sound : engine.Sound) {pivot : Nat} (present : 0 < pivot)
    (small : 2 * pivot + 1 < UInt32.size) {positive negative : Array Handle} {sides : GateSides}
    (havePositive : engine.AllHave (Literal.ofVar pivot true) positive.toList)
    (haveNegative : engine.AllHave (Literal.ofVar pivot true).complement negative.toList)
    (searched : search? engine.arena pivot positive negative = some sides) :
    Defines engine pivot positive negative sides := by
  have var : (Literal.ofVar pivot true).var = pivot := Literal.var_ofVar present small
  have presentOutput : 0 < (Literal.ofVar pivot true).var := by rwa [var]
  unfold search? at searched
  generalize Literal.ofVar pivot true = output at *
  obtain ⟨⟨first, second, found⟩, onFirst, further⟩ := Option.bind_eq_some_iff.1 searched
  dsimp only at further
  split at further
  next count =>
    cases further
    obtain ⟨permFirst, permSecond, defines⟩ :=
      onOutput?_spec sound presentOutput havePositive haveNegative onFirst
    rw [var] at defines
    refine ⟨permFirst, permSecond, ?_⟩
    rintro _ _ ⟨⟩ values
    exact defines count rfl values
  next =>
    obtain ⟨⟨first, second, found⟩, onSecond, further⟩ := Option.bind_eq_some_iff.1 further
    cases further
    have varComplement : output.complement.var = pivot := by
      rw [Literal.var_complement presentOutput, var]
    rw [← Literal.complement_complement presentOutput] at havePositive
    obtain ⟨permFirst, permSecond, defines⟩ := onOutput?_spec sound (varComplement ▸ present)
      haveNegative havePositive onSecond
    rw [varComplement] at defines
    refine ⟨permSecond, permFirst, fun count counter gate values => ?_⟩
    obtain ⟨_, isFound, pair⟩ := Option.map_eq_some_iff.1 gate
    cases pair
    rw [defines count isFound values, not_not]

end Gate

end CnfSimplifier
