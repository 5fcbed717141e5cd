import CnfSimplifier.BatchElimination
import CnfSimplifier.Proofs.Elimination
import CnfSimplifier.Proofs.TableAccess
import Mathlib.Data.List.Induction

/-!
# Plans for eliminating variables

A plan is made without a change to the formula and carried out in one go. First
the blocked clauses go one after the other; a clause is blocked if its resolvents
with those that are not planned to go yet are tautologies. If the variable is to
go, its resolvents come, and then its clauses go with records.

Here are the steps that a plan amounts to, and that making a plan comes to its end
with a sensible one: its clauses are live and distinct, it has all clauses with the
variable, the resolvents are complete, and there is something to be done.
-/
namespace CnfSimplifier

variable {literal : Literal}

/-! ## Clauses that are blocked in turn -/

namespace Arena

variable {arena : Arena} {handle : Handle} {clause : Clause}

/-- Clauses are blocked one after the other: the resolvents of each with all but
the earlier ones are tautologies. -/
def BlocksInTurn (arena : Arena) (blocked : List (Handle × Literal)) : Prop :=
  ∀ front handle chosen back, blocked = front ++ (handle, chosen) :: back →
    ∃ clause, arena.live? handle = some clause ∧ chosen ∈ clause.literals ∧
      ∀ other partner, arena.live? other = some partner → chosen.complement ∈ partner.literals →
        other ∉ front.map Prod.fst →
        Resolution.resolvent? chosen.var clause.literals partner.literals = none

theorem BlocksInTurn.nil : arena.BlocksInTurn [] := by
  intro front handle chosen back split
  simp at split

/-- One more clause is blocked. -/
theorem BlocksInTurn.concat {blocked : List (Handle × Literal)} {chosen : Literal}
    (turn : arena.BlocksInTurn blocked) (live : arena.live? handle = some clause)
    (member : chosen ∈ clause.literals)
    (tautologies : ∀ other partner, arena.live? other = some partner →
      chosen.complement ∈ partner.literals → other ∉ blocked.map Prod.fst →
      Resolution.resolvent? chosen.var clause.literals partner.literals = none) :
    arena.BlocksInTurn (blocked ++ [(handle, chosen)]) := by
  intro front other otherChosen back split
  rcases List.eq_nil_or_concat back with rfl | ⟨back, last, rfl⟩
  · obtain ⟨rfl, same⟩ := List.append_inj' split rfl
    cases same
    exact ⟨clause, live, member, tautologies⟩
  · have earlier : blocked ++ [(handle, chosen)] =
        (front ++ (other, otherChosen) :: back) ++ [last] := by
      rw [split]
      simp
    exact turn front other otherChosen back (List.append_inj' earlier rfl).1

theorem BlocksInTurn.of_concat {blocked : List (Handle × Literal)} {pair : Handle × Literal}
    (turn : arena.BlocksInTurn (blocked ++ [pair])) : arena.BlocksInTurn blocked := by
  intro front handle chosen back split
  refine turn front handle chosen (back ++ [pair]) ?_
  rw [split]
  simp

end Arena

/-! ## Steps of a plan -/

/-- The clauses with a literal have it in their texts. -/
theorem Engine.AllHave.text {engine : Engine} {handles : List Handle}
    (all : engine.AllHave literal handles) :
    ∀ literals ∈ handles.map engine.arena.text, literal ∈ literals := by
  refine List.forall_mem_map.2 fun handle inside => ?_
  obtain ⟨clause, live, member⟩ := all handle inside
  rw [Arena.text_of_live? live]
  exact member

/-- The clauses with a literal are there. -/
theorem Engine.AllHave.issued {engine : Engine} {handles : List Handle}
    (all : engine.AllHave literal handles) : ∀ handle ∈ handles, engine.Issued handle := by
  intro handle inside
  obtain ⟨clause, live, _⟩ := all handle inside
  exact ⟨clause, (Arena.live?_eq_some.1 live).1⟩

namespace Steps

variable [Realm] {scope : Scope}

/-- Clauses that follow are added. -/
theorem learn_all (picture : Picture) (new : List (List Literal))
    (follow : ∀ literals ∈ new, picture.Admits literals ∧ Rup picture.formula literals ∧
      ∀ literal ∈ literals, picture.Mentions literal.var) :
    Steps scope picture { picture.logged (new.map ProofStep.added) with
      clauses := new + picture.clauses } := by
  induction new generalizing picture with
  | nil =>
    have same : picture.logged [] = picture := by
      unfold Picture.logged
      simp
    rw [List.map_nil, same]
    simpa using Relation.ReflTransGen.refl
  | cons literals others ih =>
    obtain ⟨⟨admits, follows, known⟩, followOthers⟩ := List.forall_mem_cons.1 follow
    have learnt : Step scope picture { picture.logged [ProofStep.added literals] with
        clauses := literals ::ₘ picture.clauses } :=
      .learn literals admits follows fun literal member => .inl (known literal member)
    refine .head learnt ((ih _ fun other member => ?_).trans ?_)
    · obtain ⟨admitsOther, followsOther, knownOther⟩ := followOthers other member
      refine ⟨admitsOther.of_same_vars rfl rfl, followsOther.mono ?_, fun literal inside => ?_⟩
      · rintro part (clause | atRoot)
        · exact .inl (Multiset.mem_cons_of_mem clause)
        · exact .inr atRoot
      · obtain ⟨part, clause, rest⟩ := knownOther literal inside
        exact ⟨part, Multiset.mem_cons_of_mem clause, rest⟩
    · unfold Picture.logged
      simp only [Option.map_map, Function.comp_def, List.append_assoc, List.singleton_append,
        List.map_cons, ← Multiset.cons_coe, Multiset.cons_add, Multiset.add_cons]
      exact .refl

end Steps

/-- One side holds apart from a variable where all resolvents hold. -/
theorem holdsApart_of_resolvents {values : Assignment}
    {positive negative resolvents : List (List Literal)}
    (present : ∀ literals ∈ positive, OverVars literals)
    (resolved : ∀ first ∈ positive, ∀ second ∈ negative, ∀ resolvent,
      Resolution.resolvent? literal.var first second = some resolvent → resolvent ∈ resolvents)
    (holds : ∀ resolvent ∈ resolvents, ClauseHolds values resolvent) :
    (∀ literals ∈ positive, HoldsApart literal.var values literals) ∨
      ∀ literals ∈ negative, HoldsApart literal.var values literals := by
  by_contra neither
  obtain ⟨firstFails, secondFails⟩ := not_or.1 neither
  push Not at firstFails secondFails
  obtain ⟨first, inPositive, failsFirst⟩ := firstFails
  obtain ⟨second, inNegative, failsSecond⟩ := secondFails
  have either : HoldsApart literal.var values first ∨ HoldsApart literal.var values second := by
    cases found : Resolution.resolvent? literal.var first second with
    | none => exact Resolution.holdsApart_of_none (present first inPositive) found
    | some resolvent =>
      exact Resolution.holdsApart_of_some found
        (holds resolvent (resolved first inPositive second inNegative resolvent found))
  exact either.elim failsFirst failsSecond

open Picture in
/-- The clauses with a variable are replaced by their resolvents. Redundant ones go
without a record. -/
theorem Steps.eliminate [Realm] {picture : Picture}
    {positive negative gone resolvents : List (List Literal)} {kept : Multiset (List Literal)}
    (wellFormed : picture.WellFormed) (present : 0 < literal.var)
    (unprotected : ¬ picture.frozen literal.var)
    (isOpen : ∀ other ∈ picture.root, other.var ≠ literal.var)
    (split : picture.clauses = ((positive ++ negative ++ gone : List _) : Multiset _) + kept)
    (withLiteral : ∀ literals ∈ positive, literal ∈ literals)
    (withComplement : ∀ literals ∈ negative, literal.complement ∈ literals)
    (unmentioned : ∀ literals ∈ kept, ∀ other ∈ literals, other.var ≠ literal.var)
    (resolved : ∀ first ∈ positive, ∀ second ∈ negative, ∀ resolvent,
      Resolution.resolvent? literal.var first second = some resolvent → resolvent ∈ resolvents)
    (own : ∀ resolvent ∈ resolvents, 2 ≤ resolvent.length ∧ ∃ first ∈ positive,
      ∃ second ∈ negative, Resolution.resolvent? literal.var first second = some resolvent)
    (pure : picture.irredundant → gone = []) :
    Steps .removal picture { picture.logged (resolvents.map ProofStep.added) with
      clauses := resolvents + kept
      pending := ((positive ++ negative ++ gone : List _) : Multiset _) + picture.pending
      records := picture.records.pushAll (recordsOfSides literal positive negative) } := by
  have inside : ∀ literals ∈ positive ++ negative, literals ∈ picture.clauses := by
    intro literals member
    rw [split]
    exact Multiset.mem_add.2 (.inl (List.mem_append_left _ member))
  have admitsPositive : ∀ literals ∈ positive, picture.Admits literals := fun literals member =>
    wellFormed.admits literals (inside literals (List.mem_append_left _ member))
  have admitsNegative : ∀ literals ∈ negative, picture.Admits literals := fun literals member =>
    wellFormed.admits literals (inside literals (List.mem_append_right _ member))
  have follow : ∀ resolvent ∈ resolvents, picture.Admits resolvent ∧
      Rup picture.formula resolvent ∧ ∀ other ∈ resolvent, picture.Mentions other.var := by
    intro resolvent member
    obtain ⟨two, first, inPositive, second, inNegative, found⟩ := own resolvent member
    refine ⟨Resolution.admits_resolvent? (admitsPositive first inPositive)
      (admitsNegative second inNegative) found two, ?_, fun other isOther => ?_⟩
    · refine Resolution.rup_resolvent (.inl (inside first (List.mem_append_left _ inPositive)))
        (.inl (inside second (List.mem_append_right _ inNegative))) (withLiteral first inPositive)
        present ?_ ?_ found
      · exact (Tidy.of_admits (admitsPositive first inPositive)).own (withLiteral first inPositive)
      · exact (Tidy.of_admits (admitsNegative second inNegative)).own_complement present
          (withComplement second inNegative)
    · rcases ((Resolution.mem_resolvent? found).1 isOther).1 with inFirst | inSecond
      · exact ⟨first, inside first (List.mem_append_left _ inPositive), other, inFirst, rfl⟩
      · exact ⟨second, inside second (List.mem_append_right _ inNegative), other, inSecond, rfl⟩
  have apart : ∀ resolvent ∈ resolvents, ∀ other ∈ resolvent, other.var ≠ literal.var := by
    intro resolvent member other isOther
    obtain ⟨_, first, _, second, _, found⟩ := own resolvent member
    exact ((Resolution.mem_resolvent? found).1 isOther).2
  refine .tail (Steps.learn_all picture resolvents follow) (.weaken _ _ _ rfl ?_ ?_ ?_ ?_)
  · change (resolvents : Multiset _) + picture.clauses = _
    rw [split, add_left_comm]
  · refine forall_mem_recordsOfSides (fun literals member other inRecord => ?_)
      fun literals member other inRecord => ?_
    · exact (admitsPositive literals member).present other
        ((Record.mem_ofClause (withLiteral literals member)).1 inRecord)
    · exact (admitsNegative literals member).present other
        ((Record.mem_ofClause (withComplement literals member)).1 inRecord)
  · refine forall_mem_recordsOfSides (fun _ _ => unprotected) fun _ _ => ?_
    change ¬ picture.frozen literal.complement.var
    rw [Literal.var_complement present]
    exact unprotected
  · intro isPure values holds
    have noneGone := pure isPure
    refine holds_unwind_sides present ?_ withLiteral withComplement ?_ ?_ holds
    · change (resolvents : Multiset _) + picture.clauses = _
      rw [split, noneGone, List.append_nil, add_left_comm]
    · rintro literals (clause | ⟨unit, atRoot, rfl⟩) other isOther
      · rcases Multiset.mem_add.1 clause with isResolvent | isKept
        · exact apart literals isResolvent other isOther
        · exact unmentioned literals isKept other isOther
      · rw [List.mem_singleton.1 isOther]
        exact isOpen unit atRoot
    · refine holdsApart_of_resolvents
        (fun literals member other isOther => ((admitsPositive literals member).present other isOther).1)
        resolved fun resolvent member => ?_
      exact holds resolvent (.inl (Multiset.mem_add.2 (.inl member)))

/-- The record of a clause that is removed for a chosen literal. -/
def Arena.recordOf (arena : Arena) (pair : Handle × Literal) : Record :=
  Record.ofClause pair.2 (arena.text pair.1)

namespace Engine

variable [Realm] {engine : Engine}

/-- Clauses that are blocked one after the other go with records. -/
theorem steps_of_blocked (wellFormed : engine.picture.WellFormed)
    (space : engine.arena.slots.size ≤ UInt32.size) (blocked : List (Handle × Literal))
    (distinct : (blocked.map Prod.fst).Nodup) (turn : engine.arena.BlocksInTurn blocked)
    (free : ∀ pair ∈ blocked, ¬ engine.trail.Frozen pair.2.var ∧
      ∀ other ∈ engine.trail.facts, other.var ≠ pair.2.var)
    (pending : Multiset (List Literal)) {rest : Multiset (List Literal)}
    (split : engine.arena.contents =
      (blocked.map fun pair => engine.arena.text pair.1 : List _) + rest) :
    Steps .removal { engine.picture with pending := pending } { engine.picture with
      clauses := rest
      pending := (blocked.map fun pair => engine.arena.text pair.1 : List _) + pending
      records := engine.records.pushAll (blocked.map engine.arena.recordOf) } := by
  induction blocked using List.reverseRecOn generalizing rest with
  | nil =>
    have same : rest = engine.arena.contents := by simpa using split.symm
    rw [same, List.map_nil, List.map_nil, Multiset.coe_nil, zero_add]
    exact .refl
  | append_singleton earlier pair ih =>
    obtain ⟨handle, chosen⟩ := pair
    obtain ⟨clause, live, member, tautologies⟩ := turn earlier handle chosen [] rfl
    obtain ⟨unprotected, isOpen⟩ := free (handle, chosen) (by simp)
    have own := Arena.text_of_live? live
    have admits := wellFormed.admits _ (Arena.contents_of_live live)
    have splitEarlier : engine.arena.contents =
        (earlier.map fun pair => engine.arena.text pair.1 : List _) + (clause.literals ::ₘ rest) := by
      rw [split, List.map_append, ← Multiset.coe_add, add_assoc]
      simp [own]
    have steps := ih (distinct.sublist (by simp)) turn.of_concat
      (fun pair inside => free pair (List.mem_append_left _ inside)) splitEarlier
    -- What stays belongs to clauses that are none of the blocked ones.
    have partners : ∀ partner ∈ rest, chosen.complement ∈ partner →
        Resolution.resolvent? chosen.var clause.literals partner = none := by
      intro partner kept clash
      have allLive : ∀ other ∈ (earlier ++ [(handle, chosen)]).map Prod.fst, ∃ clause,
          engine.arena.live? other = some clause := by
        intro other inside
        obtain ⟨⟨_, otherChosen⟩, isBlocked, rfl⟩ := List.mem_map.1 inside
        obtain ⟨front, back, place⟩ := List.append_of_mem isBlocked
        obtain ⟨found, liveFound, _⟩ := turn front _ otherChosen back place
        exact ⟨found, liveFound⟩
      obtain ⟨others, splitAll, fromOthers⟩ := Arena.exists_without space distinct allLive
      rw [split, List.map_map] at splitAll
      obtain rfl : rest = others := add_left_cancel splitAll
      obtain ⟨other, found, liveOther, rfl, outside⟩ := fromOthers partner kept
      refine tautologies other found liveOther clash fun inside => outside ?_
      rw [List.map_append]
      exact List.mem_append_left _ inside
    have shorter : (((earlier ++ [(handle, chosen)]).map fun pair => engine.arena.text pair.1 :
        List _) : Multiset _) + pending = {clause.literals} +
          (((earlier.map fun pair => engine.arena.text pair.1 : List _) : Multiset _) + pending) := by
      rw [List.map_append, ← Multiset.coe_add, add_comm (Multiset.ofList _) (Multiset.ofList _),
        add_assoc]
      simp [own]
    have records : engine.records.pushAll ((earlier ++ [(handle, chosen)]).map
        engine.arena.recordOf) = (engine.records.pushAll (earlier.map engine.arena.recordOf)).pushAll
          [Record.ofClause chosen clause.literals] := by
      rw [List.map_append, Reconstruction.pushAll_append, ← own]
      rfl
    rw [shorter, records]
    refine steps.tail (.weaken {clause.literals} rest _ rfl rfl ?_ ?_ fun _ values holds => ?_)
    · intro record isRecord literal inside
      rw [List.mem_singleton.1 isRecord] at inside
      exact admits.present literal ((Record.mem_ofClause member).1 inside)
    · intro record isRecord
      rw [List.mem_singleton.1 isRecord]
      exact unprotected
    · exact Picture.holds_repair_of_blocked rfl (fun other inside => (admits.present other inside).1)
        member isOpen partners holds

end Engine

/-! ## Plans -/

namespace EliminationPlan

/-- The clauses that a plan is about. -/
def handles (plan : EliminationPlan) : List Handle :=
  plan.blocked.map Prod.fst ++
    (plan.positive.toList ++ plan.negative.toList ++ plan.redundant)

/-- The clauses that a plan removes. -/
def removed (plan : EliminationPlan) : List Handle :=
  plan.blocked.map Prod.fst ++
    if plan.eliminate then plan.positive.toList ++ plan.negative.toList ++ plan.redundant else []

/-- The clauses that a plan adds. -/
def added (plan : EliminationPlan) : List (List Literal) :=
  if plan.eliminate then plan.resolvents.toList else []

/-- The records that a plan pushes. -/
def recorded (plan : EliminationPlan) (arena : Arena)
    (literal : Literal) : List Record :=
  plan.blocked.map arena.recordOf ++
    if plan.eliminate then recordsOfSides literal (plan.positive.toList.map arena.text)
      (plan.negative.toList.map arena.text)
    else []

theorem removed_of_eliminate (plan : EliminationPlan) (eliminate : plan.eliminate = true) :
    plan.removed = plan.handles := by
  simp [removed, handles, eliminate]

theorem added_of_eliminate (plan : EliminationPlan) (eliminate : plan.eliminate = true) :
    plan.added = plan.resolvents.toList := by
  simp [added, eliminate]

theorem removed_sublist (plan : EliminationPlan) : plan.removed.Sublist plan.handles := by
  unfold removed handles
  split
  · exact .refl _
  · exact List.Sublist.append_left (List.nil_sublist _) _

end EliminationPlan

namespace Batch

variable {state after middle : Batch × Engine} {pivot : Nat}
  {failed : Error → Batch × Engine → Prop}

/-- Planning changes neither the engine nor what the pass has come to. -/
structure Thinks (state after : Batch × Engine) : Prop where
  engine : after.2 = state.2
  deleted : after.1.deleted = state.1.deleted
  resolvents : after.1.resolvents = state.1.resolvents
  eliminated : after.1.eliminated = state.1.eliminated
  removable : after.1.removable = state.1.removable

theorem Thinks.refl : Thinks state state := ⟨rfl, rfl, rfl, rfl, rfl⟩

theorem Thinks.trans (first : Thinks state middle) (second : Thinks middle after) :
    Thinks state after :=
  ⟨second.engine.trans first.engine, second.deleted.trans first.deleted,
    second.resolvents.trans first.resolvents, second.eliminated.trans first.eliminated,
    second.removable.trans first.removable⟩

/-- Spending steps changes counters only. -/
theorem spend_returns (steps : Nat) :
    (spend steps).Returns state fun _ after => Thinks state after :=
  .of_done rfl ⟨rfl, rfl, rfl, rfl, rfl⟩

/-- Blocked clauses of a side are found one after the other. -/
theorem planBlocked_returns {partners : List Handle} (remaining : Nat) {side : Array Handle}
    {blocked : List (Handle × Literal)} (few : remaining ≤ side.size)
    (own : state.2.AllHave literal side.toList)
    (stored : ∀ partner ∈ partners, state.2.Issued partner)
    (lists : state.2.ListsPartners literal partners) (turn : state.2.arena.BlocksInTurn blocked) :
    (planBlocked literal partners remaining side blocked).Returns state
      (fun found after => Thinks state after ∧ ∀ left all, found = some (left, all) →
        state.2.arena.BlocksInTurn all ∧ ∃ new, all = blocked ++ new ∧
          (∀ pair ∈ new, pair.2 = literal) ∧
          (new.map Prod.fst ++ left.toList).Perm side.toList) := by
  induction remaining generalizing state side blocked with
  | zero =>
    refine .pure ⟨.refl, ?_⟩
    rintro left all ⟨⟩
    exact ⟨turn, [], by simp, by simp, by simp⟩
  | succ remaining ih =>
    unfold planBlocked
    obtain ⟨handle, atPlace⟩ : ∃ handle, side[side.size - (remaining + 1)]? = some handle :=
      ⟨_, Array.getElem?_eq_getElem (by omega)⟩
    refine .step (Run.access_of_eq_some atPlace) ?_
    have inSide : handle ∈ side.toList := Array.mem_toList_iff.2 (Array.mem_of_getElem? atPlace)
    obtain ⟨clause, live, member⟩ := own handle inSide
    refine .step (Run.lift_of_done (Engine.clause_of_get? (Arena.live?_eq_some.1 live).1)) ?_
    refine (spend_returns _).bind ?_
    rintro goOn ⟨batch, engine⟩ thinks
    obtain rfl : engine = state.2 := thinks.engine
    split
    swap
    · exact .pure ⟨thinks, nofun⟩
    obtain ⟨isBlocked, decided, _⟩ : ∃ isBlocked, Resolution.isBlocked? state.2.arena literal.var
        clause.literals (partners.filter fun partner =>
          !blocked.any fun entry => entry.1 == partner) = some isBlocked ∧ _ :=
      Resolution.exists_isBlocked? _ _ fun other member => stored other (List.mem_filter.1 member).1
    refine .step rfl (.step (Run.access_of_eq_some decided) ?_)
    split
    next yes =>
      rw [yes] at decided
      have perm := Bag.swapPop_perm atPlace
      have next : state.2.arena.BlocksInTurn (blocked ++ [(handle, literal)]) := by
        refine turn.concat live member fun other partner livePartner clash spared => ?_
        have listed := lists other partner livePartner clash
        obtain ⟨found, lookedUp, tautology⟩ := Resolution.resolvent?_of_isBlocked? decided other (by
          refine List.mem_filter.2 ⟨listed, ?_⟩
          simp only [Bool.not_eq_true', List.any_eq_false, beq_iff_eq]
          rintro ⟨taken, chosen⟩ isTaken rfl
          exact spared (List.mem_map_of_mem isTaken))
        rw [(Arena.live?_eq_some.1 livePartner).1, Option.some.injEq] at lookedUp
        rw [lookedUp]
        exact tautology
      have ownLeft : state.2.AllHave literal
          (side.swapIfInBounds (side.size - (remaining + 1)) (side.size - 1)).pop.toList :=
        fun other inside => own other (perm.mem_iff.1 (.tail _ inside))
      have fewLeft : remaining ≤
          (side.swapIfInBounds (side.size - (remaining + 1)) (side.size - 1)).pop.size := by
        rw [Array.size_pop, Array.size_swapIfInBounds]
        omega
      refine Run.Returns.imp (@ih (batch, state.2) _ _ fewLeft ownLeft stored lists next) ?_
      rintro found after ⟨further, result⟩
      refine ⟨thinks.trans further, fun left all isFound => ?_⟩
      obtain ⟨turnAll, new, rfl, chosen, permNew⟩ := result left all isFound
      refine ⟨turnAll, (handle, literal) :: new, by simp, ?_, ?_⟩
      · exact List.forall_mem_cons.2 ⟨rfl, chosen⟩
      · exact (permNew.cons handle).trans perm
    next =>
      refine Run.Returns.imp (@ih (batch, state.2) _ _ (by omega) own stored lists turn) ?_
      rintro found after ⟨further, result⟩
      exact ⟨thinks.trans further, result⟩

/-- Lists of resolvents that have all of a clause with the given ones, and no
others. -/
structure Collects (arena : Arena) (pivot : Nat) (positive negative : List Handle)
    (resolvents : List (List Literal)) : Prop where
  all : ∀ first ∈ positive, ∀ second ∈ negative, ∀ resolvent,
    Resolution.resolvent? pivot (arena.text first) (arena.text second) = some resolvent →
    resolvent ∈ resolvents
  only : ∀ resolvent ∈ resolvents, 2 ≤ resolvent.length ∧ ∃ first ∈ positive, ∃ second ∈ negative,
    Resolution.resolvent? pivot (arena.text first) (arena.text second) = some resolvent

section Collects

variable {arena : Arena} {positive negative more : List Handle} {first second : Handle}
  {resolvents others : List (List Literal)}

theorem Collects.of_none
    (tautology : Resolution.resolvent? pivot (arena.text first) (arena.text second) = none) :
    Collects arena pivot [first] [second] [] := by
  constructor
  · simp [tautology]
  · simp

theorem Collects.of_some {resolvent : List Literal}
    (found : Resolution.resolvent? pivot (arena.text first) (arena.text second) = some resolvent)
    (two : 2 ≤ resolvent.length) : Collects arena pivot [first] [second] [resolvent] := by
  constructor
  · simp [found]
  · simp [found, two]

theorem Collects.nil_left : Collects arena pivot [] negative [] := by
  constructor <;> simp

theorem Collects.nil_right : Collects arena pivot positive [] [] := by
  constructor <;> simp

/-- Resolvents with more negative clauses are collected behind the others. -/
theorem Collects.append_right (front : Collects arena pivot positive negative resolvents)
    (back : Collects arena pivot positive more others) :
    Collects arena pivot positive (negative ++ more) (resolvents ++ others) := by
  constructor
  · intro first inPositive second inside resolvent found
    rcases List.mem_append.1 inside with early | late
    · exact List.mem_append_left _ (front.all first inPositive second early resolvent found)
    · exact List.mem_append_right _ (back.all first inPositive second late resolvent found)
  · intro resolvent inside
    rcases List.mem_append.1 inside with early | late
    · obtain ⟨two, first, inPositive, second, inNegative, found⟩ := front.only resolvent early
      exact ⟨two, first, inPositive, second, List.mem_append_left _ inNegative, found⟩
    · obtain ⟨two, first, inPositive, second, inNegative, found⟩ := back.only resolvent late
      exact ⟨two, first, inPositive, second, List.mem_append_right _ inNegative, found⟩

/-- And the other way round for positive clauses. -/
theorem Collects.append_left (front : Collects arena pivot positive negative resolvents)
    (back : Collects arena pivot more negative others) :
    Collects arena pivot (positive ++ more) negative (resolvents ++ others) := by
  constructor
  · intro first inside second inNegative resolvent found
    rcases List.mem_append.1 inside with early | late
    · exact List.mem_append_left _ (front.all first early second inNegative resolvent found)
    · exact List.mem_append_right _ (back.all first late second inNegative resolvent found)
  · intro resolvent inside
    rcases List.mem_append.1 inside with early | late
    · obtain ⟨two, first, inPositive, second, inNegative, found⟩ := front.only resolvent early
      exact ⟨two, first, List.mem_append_left _ inPositive, second, inNegative, found⟩
    · obtain ⟨two, first, inPositive, second, inNegative, found⟩ := back.only resolvent late
      exact ⟨two, first, List.mem_append_right _ inPositive, second, inNegative, found⟩

end Collects

/-- The resolvents of a clause with others are collected. -/
theorem resolveAgainst_returns {old : Nat} {handle : Handle} (negative : List Handle)
    (stored : ∀ other ∈ negative, state.2.Issued other) {sofar : Array (List Literal)} :
    (resolveAgainst old pivot (state.2.arena.text handle) negative sofar).Returns state
      (fun found after => Thinks state after ∧ ∀ resolvents, found = some resolvents →
        ∃ new, resolvents.toList = sofar.toList ++ new ∧
          Collects state.2.arena pivot [handle] negative new) := by
  induction negative generalizing state sofar with
  | nil =>
    refine .pure ⟨.refl, ?_⟩
    rintro _ ⟨⟩
    exact ⟨[], by simp, .nil_right⟩
  | cons other rest ih =>
    obtain ⟨⟨partner, lookedUp⟩, storedRest⟩ := List.forall_mem_cons.1 stored
    unfold resolveAgainst
    refine .step (Run.lift_of_done (Engine.clause_of_get? lookedUp)) ?_
    refine (spend_returns _).bind ?_
    rintro goOn ⟨batch, engine⟩ thinks
    obtain rfl : engine = state.2 := thinks.engine
    have text := Arena.text_of_get? lookedUp
    split
    swap
    · exact .pure ⟨thinks, nofun⟩
    refine .step rfl ?_
    rw [← text]
    split
    next tautology =>
      refine Run.Returns.imp (@ih (batch, state.2) storedRest _) ?_
      rintro found after ⟨further, result⟩
      refine ⟨thinks.trans further, fun resolvents isFound => ?_⟩
      obtain ⟨new, same, collects⟩ := result resolvents isFound
      exact ⟨new, same, .append_right (.of_none tautology) collects⟩
    next resolvent isResolvent =>
      dsimp only
      split
      · exact .pure ⟨thinks, nofun⟩
      next fits =>
      refine Run.Returns.imp (@ih (batch, state.2) storedRest _) ?_
      rintro found after ⟨further, result⟩
      refine ⟨thinks.trans further, fun resolvents isFound => ?_⟩
      obtain ⟨new, same, collects⟩ := result resolvents isFound
      have two : 2 ≤ resolvent.length := by
        simp only [Bool.or_eq_true, decide_eq_true_eq, not_or, Nat.not_lt] at fits
        exact fits.1.1
      refine ⟨resolvent :: new, ?_, .append_right (.of_some isResolvent two) collects⟩
      rw [same]
      simp

/-- The resolvents of all clauses of a side with those of the other are collected. -/
theorem resolveAll_returns {old : Nat} {negative : List Handle}
    (storedNegative : ∀ other ∈ negative, state.2.Issued other) (positive : List Handle)
    (stored : ∀ other ∈ positive, state.2.Issued other) {sofar : Array (List Literal)} :
    (resolveAll old pivot negative positive sofar).Returns state
      (fun found after => Thinks state after ∧ ∀ resolvents, found = some resolvents →
        ∃ new, resolvents.toList = sofar.toList ++ new ∧
          Collects state.2.arena pivot positive negative new) := by
  induction positive generalizing state sofar with
  | nil =>
    refine .pure ⟨.refl, ?_⟩
    rintro _ ⟨⟩
    exact ⟨[], by simp, .nil_left⟩
  | cons handle rest ih =>
    obtain ⟨⟨clause, lookedUp⟩, storedRest⟩ := List.forall_mem_cons.1 stored
    unfold resolveAll
    refine .step (Run.lift_of_done (Engine.clause_of_get? lookedUp)) ?_
    rw [← Arena.text_of_get? lookedUp]
    refine (resolveAgainst_returns negative storedNegative).bind ?_
    rintro found ⟨batch, engine⟩ ⟨thinks, result⟩
    obtain rfl : engine = state.2 := thinks.engine
    split
    · exact .pure ⟨thinks, nofun⟩
    next resolvents =>
    obtain ⟨new, same, collects⟩ := result resolvents rfl
    refine Run.Returns.imp (@ih (batch, state.2) storedNegative storedRest _) ?_
    rintro found after ⟨further, resultRest⟩
    refine ⟨thinks.trans further, fun all isFound => ?_⟩
    obtain ⟨more, sameRest, collectsRest⟩ := resultRest all isFound
    refine ⟨new ++ more, ?_, .append_left collects collectsRest⟩
    rw [sameRest, same, List.append_assoc]

/-- A plan for a variable that can be carried out. -/
structure Sensible (engine : Engine) (literal : Literal) (plan : EliminationPlan) : Prop where
  distinct : plan.handles.Nodup
  live : ∀ handle ∈ plan.handles, ∃ clause, engine.arena.live? handle = some clause
  covers : ∀ handle clause, engine.arena.live? handle = some clause →
    ∀ other ∈ clause.literals, other.var = literal.var → handle ∈ plan.handles
  turn : engine.arena.BlocksInTurn plan.blocked
  chosen : ∀ pair ∈ plan.blocked, pair.2.var = literal.var
  positive : engine.AllHave literal plan.positive.toList
  negative : engine.AllHave literal.complement plan.negative.toList
  redundant : ∀ handle ∈ plan.redundant, ∃ clause, engine.arena.live? handle = some clause ∧
    clause.isRedundant = true
  collects : plan.eliminate = true → Collects engine.arena literal.var plan.positive.toList
    plan.negative.toList plan.resolvents.toList

variable {engine : Engine} {plan : EliminationPlan}

/-- The plan to do nothing. -/
theorem sensible_of_sides [Realm] (sound : engine.Sound) (present : 0 < literal.var)
    {positive negative positiveRedundant negativeRedundant : List Handle}
    (own : engine.Side literal positive positiveRedundant)
    (others : engine.Side literal.complement negative negativeRedundant)
    (distinctOwn : positiveRedundant.Nodup) (distinctOthers : negativeRedundant.Nodup)
    (redundantOwn : ∀ handle ∈ positiveRedundant, ∃ clause,
      engine.arena.live? handle = some clause ∧ clause.isRedundant = true ∧
        literal ∈ clause.literals)
    (redundantOthers : ∀ handle ∈ negativeRedundant, ∃ clause,
      engine.arena.live? handle = some clause ∧ clause.isRedundant = true ∧
        literal.complement ∈ clause.literals) :
    Sensible engine literal {
      positive := positive.toArray
      negative := negative.toArray
      redundant := positiveRedundant ++ negativeRedundant } := by
  -- No clause has both signs of the variable.
  have apart : ∀ handle clause other, engine.arena.live? handle = some clause →
      engine.arena.live? handle = some other → literal ∈ clause.literals →
      literal.complement ∈ other.literals → False := by
    intro handle clause other live liveOther inside outside
    rw [live, Option.some.injEq] at liveOther
    subst liveOther
    exact (sound.admits live).proper literal inside outside
  have plain : ∀ handle, handle ∈ positive ∨ handle ∈ negative →
      ∀ clause, engine.arena.live? handle = some clause → clause.isRedundant = false :=
    fun handle inside => inside.elim (own.irredundant handle) (others.irredundant handle)
  have marked : ∀ handle, handle ∈ positiveRedundant ∨ handle ∈ negativeRedundant →
      ∃ clause, engine.arena.live? handle = some clause ∧ clause.isRedundant = true := by
    rintro handle (inOwn | inOthers)
    · obtain ⟨clause, live, isRedundant, _⟩ := redundantOwn handle inOwn
      exact ⟨clause, live, isRedundant⟩
    · obtain ⟨clause, live, isRedundant, _⟩ := redundantOthers handle inOthers
      exact ⟨clause, live, isRedundant⟩
  constructor
  case distinct =>
    simp only [EliminationPlan.handles, List.map_nil, List.nil_append, List.nodup_append,
      List.mem_append]
    refine ⟨⟨own.distinct, others.distinct, ?_⟩, ⟨distinctOwn, distinctOthers, ?_⟩, ?_⟩
    · rintro handle inOwn _ inOthers rfl
      obtain ⟨clause, live, inside⟩ := own.all handle inOwn
      obtain ⟨other, liveOther, outside⟩ := others.all handle inOthers
      exact apart handle clause other live liveOther inside outside
    · rintro handle inOwn _ inOthers rfl
      obtain ⟨clause, live, _, inside⟩ := redundantOwn handle inOwn
      obtain ⟨other, liveOther, _, outside⟩ := redundantOthers handle inOthers
      exact apart handle clause other live liveOther inside outside
    · rintro handle inSides _ inRedundant rfl
      obtain ⟨clause, live, isRedundant⟩ := marked handle inRedundant
      rw [plain handle inSides clause live] at isRedundant
      cases isRedundant
  case live =>
    simp only [EliminationPlan.handles, List.map_nil, List.nil_append, List.mem_append]
    rintro handle ((inOwn | inOthers) | inRedundant)
    · obtain ⟨clause, live, _⟩ := own.all handle inOwn
      exact ⟨clause, live⟩
    · obtain ⟨clause, live, _⟩ := others.all handle inOthers
      exact ⟨clause, live⟩
    · obtain ⟨clause, live, _⟩ := marked handle inRedundant
      exact ⟨clause, live⟩
  case covers =>
    intro handle clause live other inside same
    simp only [EliminationPlan.handles, List.map_nil, List.nil_append, List.mem_append]
    rcases Literal.eq_or_eq_complement present same with rfl | rfl
    · exact (own.covers handle clause live inside).imp .inl .inl
    · exact (others.covers handle clause live inside).imp .inr .inr
  case turn => exact .nil
  case chosen => simp
  case positive => exact own.all
  case negative => exact others.all
  case redundant => exact fun handle inside => marked handle (List.mem_append.1 inside)
  case collects => simp

/-- Clauses that are found to be blocked are moved to the front of a plan. -/
theorem Sensible.of_blocked (sensible : Sensible engine literal plan)
    {positive negative : Array Handle} {blocked : List (Handle × Literal)}
    (none : plan.eliminate = false) (turn : engine.arena.BlocksInTurn blocked)
    (chosen : ∀ pair ∈ blocked, pair.2.var = literal.var)
    (fewerPositive : ∀ handle ∈ positive.toList, handle ∈ plan.positive.toList)
    (fewerNegative : ∀ handle ∈ negative.toList, handle ∈ plan.negative.toList)
    (perm : (blocked.map Prod.fst ++ (positive.toList ++ negative.toList ++ plan.redundant)).Perm
      plan.handles) :
    Sensible engine literal
      { plan with positive := positive, negative := negative, blocked := blocked } where
  distinct := perm.nodup_iff.2 sensible.distinct
  live handle inside := sensible.live handle (perm.mem_iff.1 inside)
  covers handle clause live other inside same :=
    perm.mem_iff.2 (sensible.covers handle clause live other inside same)
  turn := turn
  chosen := chosen
  positive handle inside := sensible.positive handle (fewerPositive handle inside)
  negative handle inside := sensible.negative handle (fewerNegative handle inside)
  redundant := sensible.redundant
  collects eliminate := by
    rw [none] at eliminate
    cases eliminate

/-- Blocked clauses are looked for on both sides. -/
theorem planBothSides_returns {withPositive withNegative : List Handle}
    (isPivot : (Literal.ofVar pivot true).var = pivot) (present : 0 < pivot)
    (sensible : Sensible state.2 (Literal.ofVar pivot true) plan) (fresh : plan.blocked = [])
    (none : plan.eliminate = false)
    (storedPositive : ∀ handle ∈ withPositive, state.2.Issued handle)
    (storedNegative : ∀ handle ∈ withNegative, state.2.Issued handle)
    (listsNegative : state.2.ListsPartners (Literal.ofVar pivot true) withNegative)
    (listsPositive : state.2.ListsPartners (Literal.ofVar pivot true).complement withPositive) :
    (planBothSides pivot withPositive withNegative plan).Returns state
      (fun found after => Thinks state after ∧ ∀ better, found = some better →
        Sensible state.2 (Literal.ofVar pivot true) better) := by
  unfold planBothSides
  dsimp only
  generalize Literal.ofVar pivot true = literal at *
  refine (planBlocked_returns _ le_rfl sensible.positive storedNegative listsNegative .nil).bind ?_
  rintro found ⟨batch, engine⟩ ⟨thinks, result⟩
  obtain rfl : engine = state.2 := thinks.engine
  split
  · exact .pure ⟨thinks, nofun⟩
  next positive blocked =>
  obtain ⟨turn, new, rfl, chosen, perm⟩ := result positive blocked rfl
  refine Run.Returns.bind (planBlocked_returns _ le_rfl sensible.negative storedPositive
    listsPositive turn) ?_
  rintro found ⟨batch, engine⟩ ⟨further, result⟩
  obtain rfl : engine = state.2 := further.engine
  split
  · exact .pure ⟨thinks.trans further, nofun⟩
  next negative all =>
  obtain ⟨turnAll, more, rfl, chosenMore, permMore⟩ := result negative all rfl
  refine .pure ⟨thinks.trans further, ?_⟩
  rintro _ ⟨⟩
  refine sensible.of_blocked none turnAll ?_ ?_ ?_ ?_
  · refine List.forall_mem_append.2 ⟨fun pair inside => ?_, fun pair inside => ?_⟩
    · rw [chosen pair inside]
    · rw [chosenMore pair inside, Literal.var_complement (by omega)]
  · exact fun handle inside => perm.mem_iff.1 (List.mem_append_right _ inside)
  · exact fun handle inside => permMore.mem_iff.1 (List.mem_append_right _ inside)
  · rw [EliminationPlan.handles, fresh, List.map_nil, List.nil_append]
    refine List.Perm.trans ?_ ((perm.append permMore).append_right _)
    rw [← Multiset.coe_eq_coe]
    simp only [List.map_append, ← Multiset.coe_add]
    ac_rfl

/-- Whether a variable goes is decided on all of its resolvents. -/
theorem planElimination_returns (isPivot : literal.var = pivot)
    (sensible : Sensible state.2 literal plan) :
    (planElimination pivot plan).Returns state
      (fun better after => Thinks state after ∧ Sensible state.2 literal better) := by
  unfold planElimination
  refine (resolveAll_returns sensible.negative.issued _ sensible.positive.issued).bind ?_
  rintro found ⟨batch, engine⟩ ⟨thinks, result⟩
  obtain rfl : engine = state.2 := thinks.engine
  split
  · exact .pure ⟨thinks, sensible⟩
  next resolvents =>
  obtain ⟨new, same, collects⟩ := result resolvents rfl
  refine .step rfl (.step rfl ?_)
  dsimp only
  split
  · refine .step rfl (.pure ⟨thinks.trans ⟨rfl, rfl, rfl, rfl, rfl⟩, ?_⟩)
    refine { sensible with collects := fun _ => ?_ }
    rw [isPivot]
    change Collects _ _ _ _ resolvents.toList
    rw [same]
    exact collects
  · exact .pure ⟨thinks, sensible⟩

/-- The clauses that hold a literal are listed. -/
theorem listsPartners_of_holds {handles : Array Handle}
    (listed : Listed engine.index engine.arena)
    (found : engine.index.list? literal.complement = some handles) :
    engine.ListsPartners literal
      (handles.toList.filter fun handle => engine.arena.holds handle literal.complement) := by
  intro handle clause live member
  refine List.mem_filter.2 ⟨listed.mem_of_live live member found, ?_⟩
  exact Arena.holds_iff.2 ⟨clause, live, member⟩

/-- The clauses with a literal of the engine are found. -/
theorem clausesWith_returns (inStep : engine.InStep)
    (inside : literal.var < engine.trail.vars.size) :
    (Eliminator.clausesWith literal).Returns engine fun found after => after = engine ∧
      engine.Side literal found.1 found.2 ∧ found.2.Nodup ∧
      ∀ handle ∈ found.2, ∃ clause, engine.arena.live? handle = some clause ∧
        clause.isRedundant = true ∧ literal ∈ clause.literals := by
  refine Run.Safe.returns ?_ (Eliminator.clausesWith_looks inStep.listed) fun _ _ => id
  exact .look (Engine.safe_occurrences inStep.roomy inside) Engine.looks_occurrences fun _ _ =>
    .step rfl .pure

/-- Making a plan comes to its end, with a sensible one where something is to be done. -/
theorem plan_returns [Realm] (sound : state.2.Sound) (removable : state.2.Removable pivot)
    (present : 0 < pivot) :
    (Batch.plan pivot).Returns state (fun found after => Thinks state after ∧
      ∀ plan, found = some plan → Sensible state.2 (Literal.ofVar pivot true) plan ∧
        (plan.blocked = [] → plan.eliminate = true)) := by
  have isPivot : (Literal.ofVar pivot true).var = pivot :=
    Literal.var_ofVar present (removable.small sound)
  have positivePivot : 0 < (Literal.ofVar pivot true).var := by rwa [isPivot]
  have inside : (Literal.ofVar pivot true).var < state.2.trail.vars.size := by
    rw [isPivot]
    exact removable.inRange
  have opposite : (Literal.ofVar pivot true).complement.var < state.2.trail.vars.size := by
    rwa [Literal.var_complement positivePivot]
  have issued : ∀ (listed : List Handle) (literal : Literal),
      ∀ handle ∈ listed.filter fun handle => state.2.arena.holds handle literal,
        state.2.Issued handle := fun _ _ _ member => Engine.issued_of_holds (List.mem_filter.1 member).2
  unfold Batch.plan
  refine (clausesWith_returns sound.toInStep inside).lift.bind ?_
  rintro ⟨positive, positiveRedundant⟩ ⟨_, _⟩ ⟨rfl, rfl, own, distinctOwn, ownRedundant⟩
  refine (clausesWith_returns sound.toInStep opposite).lift.bind ?_
  rintro ⟨negative, negativeRedundant⟩ ⟨_, _⟩ ⟨rfl, rfl, others, distinctOthers, othersRedundant⟩
  dsimp only at own distinctOwn ownRedundant others distinctOthers othersRedundant ⊢
  have sensible := sensible_of_sides sound positivePivot own others distinctOwn distinctOthers
    ownRedundant othersRedundant
  refine .step rfl ?_
  -- The lists of the literals are there, and those that hold them are partners.
  have lists : ∀ literal : Literal, literal.var < state.2.trail.vars.size →
      ∃ list, state.2.index.list? literal = some list ∧
        Engine.occurrences literal state.2 = .done list.toList state.2 := by
    intro literal inside
    obtain ⟨entry, found⟩ := sound.roomy.exists_entry inside
    have list : state.2.index.list? literal = some entry.handles := by
      rw [Occurrences.list?, found, Option.map_some]
    exact ⟨_, list, Engine.occurrences_of_list? list⟩
  obtain ⟨listPositive, foundPositive, looked⟩ := lists _ inside
  refine .step (Run.lift_of_done looked) ?_
  obtain ⟨listNegative, foundNegative, looked⟩ := lists _ opposite
  refine .step (Run.lift_of_done looked) (.step rfl ?_)
  -- Whatever is planned about blocked clauses, the rest is the same.
  have finish : ∀ (batch : Batch) (plan : EliminationPlan), Thinks state (batch, state.2) →
      Sensible state.2 (Literal.ofVar pivot true) plan →
      (do
        let plan ← planElimination pivot plan
        if (plan.blocked.isEmpty && !plan.eliminate) = true then return none
        else return some plan : Run (Batch × Engine) (Option EliminationPlan)).Returns
        (batch, state.2) (fun found after => Thinks state after ∧ ∀ plan, found = some plan →
          Sensible state.2 (Literal.ofVar pivot true) plan ∧
            (plan.blocked = [] → plan.eliminate = true)) := by
    intro batch plan thinks sensible
    refine Run.Returns.bind (planElimination_returns isPivot sensible) ?_
    rintro better after ⟨further, sensibleBetter⟩
    split
    · exact .pure ⟨thinks.trans further, by rintro _ ⟨⟩⟩
    next busy =>
      refine .pure ⟨thinks.trans further, ?_⟩
      rintro _ ⟨⟩
      refine ⟨sensibleBetter, fun none => ?_⟩
      simpa [none] using busy
  split
  · exact .pure ⟨.refl, by rintro _ ⟨⟩⟩
  dsimp only
  split
  · have listsPositive : state.2.ListsPartners (Literal.ofVar pivot true).complement
        (listPositive.toList.filter fun handle =>
          state.2.arena.holds handle (Literal.ofVar pivot true)) := by
      rw [← Literal.complement_complement positivePivot] at foundPositive
      have lists := listsPartners_of_holds sound.listed foundPositive
      rwa [Literal.complement_complement positivePivot] at lists
    refine (planBothSides_returns isPivot present sensible rfl rfl (issued _ _) (issued _ _)
      (listsPartners_of_holds sound.listed foundNegative) listsPositive).bind ?_
    rintro found ⟨batch, engine⟩ ⟨thinks, result⟩
    obtain rfl : engine = state.2 := thinks.engine
    split
    · exact .pure ⟨thinks, by rintro _ ⟨⟩⟩
    next better => exact finish batch better thinks (result better rfl)
  · exact .step rfl (finish state.1 _ .refl sensible)

end Batch

end CnfSimplifier
