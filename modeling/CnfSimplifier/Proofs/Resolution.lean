import CnfSimplifier.Resolution
import CnfSimplifier.Proofs.Weakening

/-!
# Resolution on a variable

What a resolvent is made of, and what it says. Where the resolvent of two clauses
holds or is a tautology, one of the two holds *apart* from the variable, that is,
by a literal of another variable. So either all clauses with a literal hold apart
from its variable or all clauses with its complement do, and the variable can be
given the value that the others need.

A record changes its variable only when its clause does not hold apart from it.
-/
namespace CnfSimplifier

variable {pivot : Nat} {values : Assignment} {first second : List Literal} {literal : Literal}
  {records : List Record}

/-- A clause holds by a literal of another variable than the given one. -/
def HoldsApart (pivot : Nat) (values : Assignment) (literals : List Literal) : Prop :=
  ∃ literal ∈ literals, literal.var ≠ pivot ∧ literal.Holds values

theorem HoldsApart.clauseHolds (apart : HoldsApart pivot values first) :
    ClauseHolds values first := by
  obtain ⟨literal, member, _, holds⟩ := apart
  exact ⟨literal, member, holds⟩

/-- The value of the variable does not matter. -/
theorem HoldsApart.of_agree {other : Assignment} (apart : HoldsApart pivot values first)
    (agree : ∀ name, name ≠ pivot → other name = values name) : HoldsApart pivot other first := by
  obtain ⟨literal, member, different, holds⟩ := apart
  refine ⟨literal, member, different, ?_⟩
  unfold Literal.Holds
  rw [agree literal.var different]
  exact holds

/-- A clause that does not mention the variable holds apart from it if it holds. -/
theorem HoldsApart.of_unmentioned (holds : ClauseHolds values first)
    (unmentioned : ∀ literal ∈ first, literal.var ≠ pivot) : HoldsApart pivot values first := by
  obtain ⟨literal, member, literalHolds⟩ := holds
  exact ⟨literal, member, unmentioned literal member, literalHolds⟩

namespace Resolution

variable {literals : List Literal}

/-! ## What a resolvent is made of -/

/-- The length is that of the resolvent. -/
theorem size?_eq (pivot : Nat) (first second : List Literal) :
    size? pivot first second = (resolvent? pivot first second).map List.length := by
  fun_induction resolvent? pivot first second <;>
    simp_all [size?, Option.map_map, Function.comp_def]

/-- A resolvent that is a tautology has opposite literals of another variable. -/
theorem clash_of_resolvent?_eq_none (present : OverVars first)
    (tautology : resolvent? pivot first second = none) :
    ∃ literal ∈ first, literal.var ≠ pivot ∧ literal.complement ∈ second := by
  fun_induction resolvent? pivot first second with
  | case1 => cases tautology
  | case2 a first same ih =>
    obtain ⟨literal, member, rest⟩ := ih (fun l inside => present l (.tail _ inside)) tautology
    exact ⟨literal, .tail _ member, rest⟩
  | case3 a first different ih =>
    obtain ⟨literal, member, rest⟩ := ih (fun l inside => present l (.tail _ inside))
      (Option.map_eq_none_iff.1 tautology)
    exact ⟨literal, .tail _ member, rest⟩
  | case4 b second same ih =>
    obtain ⟨literal, member, _⟩ := ih present tautology
    cases member
  | case5 b second different ih =>
    obtain ⟨literal, member, _⟩ := ih present (Option.map_eq_none_iff.1 tautology)
    cases member
  | case6 a first b second same ih =>
    obtain ⟨literal, member, rest⟩ := ih (fun l inside => present l (.tail _ inside)) tautology
    exact ⟨literal, .tail _ member, rest⟩
  | case7 a first b second different same ih =>
    obtain ⟨literal, member, apart, inside⟩ := ih present tautology
    exact ⟨literal, member, apart, .tail _ inside⟩
  | case8 first a second differentA differentB sameVar ih =>
    obtain ⟨literal, member, apart, inside⟩ := ih (fun l inside => present l (.tail _ inside))
      (Option.map_eq_none_iff.1 tautology)
    exact ⟨literal, .tail _ member, apart, .tail _ inside⟩
  | case9 a first b second differentA differentB sameVar unequal =>
    have opposite := (Literal.eq_or_eq_complement (present a List.mem_cons_self)
      sameVar.symm).resolve_left fun same => unequal same.symm
    exact ⟨a, List.mem_cons_self, differentA, opposite ▸ List.mem_cons_self⟩
  | case10 a first b second differentA differentB differentVars below ih =>
    obtain ⟨literal, member, rest⟩ := ih (fun l inside => present l (.tail _ inside))
      (Option.map_eq_none_iff.1 tautology)
    exact ⟨literal, .tail _ member, rest⟩
  | case11 a first b second differentA differentB differentVars notBelow ih =>
    obtain ⟨literal, member, apart, inside⟩ := ih present (Option.map_eq_none_iff.1 tautology)
    exact ⟨literal, member, apart, .tail _ inside⟩

/-- A resolvent has the literals of both clauses without those of the variable. -/
theorem mem_resolvent? {resolvent : List Literal}
    (found : resolvent? pivot first second = some resolvent) :
    literal ∈ resolvent ↔ (literal ∈ first ∨ literal ∈ second) ∧ literal.var ≠ pivot := by
  fun_induction resolvent? pivot first second generalizing resolvent with
  | case1 =>
    cases found
    simp
  | case2 a first same ih =>
    rw [ih found]
    grind
  | case3 a first different ih =>
    obtain ⟨rest, foundRest, rfl⟩ := Option.map_eq_some_iff.1 found
    rw [List.mem_cons, ih foundRest]
    grind
  | case4 b second same ih =>
    rw [ih found]
    grind
  | case5 b second different ih =>
    obtain ⟨rest, foundRest, rfl⟩ := Option.map_eq_some_iff.1 found
    rw [List.mem_cons, ih foundRest]
    grind
  | case6 a first b second same ih =>
    rw [ih found]
    grind
  | case7 a first b second different same ih =>
    rw [ih found]
    grind
  | case8 first a second differentA differentB sameVar ih =>
    obtain ⟨rest, foundRest, rfl⟩ := Option.map_eq_some_iff.1 found
    rw [List.mem_cons, ih foundRest]
    grind
  | case9 => cases found
  | case10 a first b second differentA differentB differentVars below ih =>
    obtain ⟨rest, foundRest, rfl⟩ := Option.map_eq_some_iff.1 found
    rw [List.mem_cons, ih foundRest]
    grind
  | case11 a first b second differentA differentB differentVars notBelow ih =>
    obtain ⟨rest, foundRest, rfl⟩ := Option.map_eq_some_iff.1 found
    rw [List.mem_cons, ih foundRest]
    grind

/-! ## Ascending resolvents -/

/-- The variables of a clause ascend with its literals. -/
theorem pairwise_var (sorted : literals.Pairwise (· < ·)) (present : OverVars literals)
    (proper : ∀ literal ∈ literals, literal.complement ∉ literals) :
    literals.Pairwise fun a b => a.var < b.var := by
  refine sorted.imp_of_mem fun {a b} inA inB below => ?_
  have codes : a.code.toNat < b.code.toNat := UInt32.lt_iff_toNat_lt.1 below
  have ordered : a.var ≤ b.var := Nat.div_le_div_right (Nat.le_of_lt codes)
  refine Nat.lt_of_le_of_ne ordered fun same => ?_
  rcases Literal.eq_or_eq_complement (present a inA) same.symm with rfl | rfl
  · exact UInt32.lt_irrefl _ below
  · exact proper a inA inB

/-- Literals ascend with their variables. -/
theorem pairwise_of_var (sorted : literals.Pairwise fun a b => a.var < b.var) :
    literals.Pairwise (· < ·) := by
  refine sorted.imp fun {a b} below => ?_
  refine Literal.lt_def.2 (UInt32.lt_iff_toNat_lt.2 ?_)
  unfold Literal.var at below
  omega

/-- No variable occurs twice where variables ascend. -/
theorem complement_not_mem_of_var (sorted : literals.Pairwise fun a b => a.var < b.var)
    (present : OverVars literals) : ∀ literal ∈ literals, literal.complement ∉ literals := by
  intro literal member inside
  have positive := present literal member
  have once : (literals.map Literal.var).Nodup :=
    List.pairwise_map.2 (sorted.imp fun below => Nat.ne_of_lt below)
  have same := List.inj_on_of_nodup_map once inside member (Literal.var_complement positive)
  exact Literal.complement_ne positive same

end Resolution

/-- The form of stored clauses: the literals belong to variables, they ascend without
repetitions, and no two of them are opposite. -/
structure Tidy (literals : List Literal) : Prop where
  present : OverVars literals
  sorted : literals.Pairwise (· < ·)
  unopposed : ∀ literal ∈ literals, literal.complement ∉ literals

instance (literals : List Literal) : Decidable (Tidy literals) :=
  decidable_of_iff ((∀ literal ∈ literals, 0 < literal.var) ∧ literals.Pairwise (· < ·) ∧
      ∀ literal ∈ literals, literal.complement ∉ literals)
    ⟨fun ⟨present, sorted, unopposed⟩ => ⟨present, sorted, unopposed⟩,
      fun tidy => ⟨tidy.present, tidy.sorted, tidy.unopposed⟩⟩

namespace Tidy

theorem pairwise_var (tidy : Tidy first) : first.Pairwise fun a b => a.var < b.var :=
  Resolution.pairwise_var tidy.sorted tidy.present tidy.unopposed

theorem of_pairwise_var (present : OverVars first)
    (sorted : first.Pairwise fun a b => a.var < b.var) : Tidy first where
  present := present
  sorted := Resolution.pairwise_of_var sorted
  unopposed := Resolution.complement_not_mem_of_var sorted present

theorem of_admits [Realm] {picture : Picture} (admits : picture.Admits first) : Tidy first where
  present literal member := (admits.present literal member).1
  sorted := admits.sorted
  unopposed := admits.proper

/-- A clause has one literal of a variable. -/
theorem own (tidy : Tidy first) (member : literal ∈ first) :
    ∀ other ∈ first, other.var = literal.var → other = literal :=
  fun _ inside same => List.inj_on_of_nodup_map
    (List.pairwise_map.2 (tidy.pairwise_var.imp Nat.ne_of_lt)) inside member same

theorem own_complement (tidy : Tidy second) (present : 0 < literal.var)
    (opposite : literal.complement ∈ second) :
    ∀ other ∈ second, other.var = literal.var → other = literal.complement :=
  fun other inside same => tidy.own opposite other inside (same.trans (Literal.var_complement present).symm)

end Tidy

namespace Resolution

variable {resolvent : List Literal}

/-- The resolvent of ascending clauses ascends. -/
theorem pairwise_resolvent? (sortedFirst : first.Pairwise fun a b => a.var < b.var)
    (sortedSecond : second.Pairwise fun a b => a.var < b.var)
    (found : resolvent? pivot first second = some resolvent) :
    resolvent.Pairwise fun a b => a.var < b.var := by
  -- Whatever comes first is below what is left of both clauses.
  have step : ∀ {a : Literal} {first second rest : List Literal},
      resolvent? pivot first second = some rest → rest.Pairwise (fun a b => a.var < b.var) →
      (∀ b ∈ first, a.var < b.var) → (∀ b ∈ second, a.var < b.var) →
      (a :: rest).Pairwise fun a b => a.var < b.var := by
    intro a first second rest foundRest sorted belowFirst belowSecond
    refine List.pairwise_cons.2 ⟨fun b member => ?_, sorted⟩
    exact ((mem_resolvent? foundRest).1 member).1.elim (belowFirst b) (belowSecond b)
  fun_induction resolvent? pivot first second generalizing resolvent with
  | case1 =>
    cases found
    exact .nil
  | case2 a first same ih => exact ih sortedFirst.of_cons sortedSecond found
  | case3 a first different ih =>
    obtain ⟨rest, foundRest, rfl⟩ := Option.map_eq_some_iff.1 found
    exact step foundRest (ih sortedFirst.of_cons sortedSecond foundRest)
      (List.pairwise_cons.1 sortedFirst).1 (by simp)
  | case4 b second same ih => exact ih sortedFirst sortedSecond.of_cons found
  | case5 b second different ih =>
    obtain ⟨rest, foundRest, rfl⟩ := Option.map_eq_some_iff.1 found
    exact step foundRest (ih sortedFirst sortedSecond.of_cons foundRest) (by simp)
      (List.pairwise_cons.1 sortedSecond).1
  | case6 a first b second same ih => exact ih sortedFirst.of_cons sortedSecond found
  | case7 a first b second different same ih => exact ih sortedFirst sortedSecond.of_cons found
  | case8 first a second differentA differentB sameVar ih =>
    obtain ⟨rest, foundRest, rfl⟩ := Option.map_eq_some_iff.1 found
    exact step foundRest (ih sortedFirst.of_cons sortedSecond.of_cons foundRest)
      (List.pairwise_cons.1 sortedFirst).1 (List.pairwise_cons.1 sortedSecond).1
  | case9 => cases found
  | case10 a first b second differentA differentB differentVars below ih =>
    obtain ⟨rest, foundRest, rfl⟩ := Option.map_eq_some_iff.1 found
    refine step foundRest (ih sortedFirst.of_cons sortedSecond foundRest)
      (List.pairwise_cons.1 sortedFirst).1 (List.forall_mem_cons.2 ⟨below, fun c member => ?_⟩)
    exact below.trans ((List.pairwise_cons.1 sortedSecond).1 c member)
  | case11 a first b second differentA differentB differentVars notBelow ih =>
    obtain ⟨rest, foundRest, rfl⟩ := Option.map_eq_some_iff.1 found
    have above : b.var < a.var := by omega
    refine step foundRest (ih sortedFirst sortedSecond.of_cons foundRest)
      (List.forall_mem_cons.2 ⟨above, fun c member => ?_⟩) (List.pairwise_cons.1 sortedSecond).1
    exact above.trans ((List.pairwise_cons.1 sortedFirst).1 c member)

/-- The resolvent of clauses of the stored form has that form. -/
theorem tidy_resolvent? (tidyFirst : Tidy first) (tidySecond : Tidy second)
    (found : resolvent? pivot first second = some resolvent) : Tidy resolvent := by
  apply Tidy.of_pairwise_var
  · intro literal member
    obtain ⟨inFirst | inSecond, _⟩ := (mem_resolvent? found).1 member
    · exact tidyFirst.present literal inFirst
    · exact tidySecond.present literal inSecond
  · exact pairwise_resolvent? tidyFirst.pairwise_var tidySecond.pairwise_var found

/-- There is no resolvent exactly where a variable other than the pivot occurs in the two
clauses with opposite signs. -/
theorem resolvent?_eq_none_iff (tidyFirst : Tidy first) (tidySecond : Tidy second) :
    resolvent? pivot first second = none ↔
      ∃ literal ∈ first, literal.var ≠ pivot ∧ literal.complement ∈ second := by
  constructor
  · exact clash_of_resolvent?_eq_none tidyFirst.present
  · rintro ⟨literal, member, different, opposite⟩
    -- A resolvent would have both literals.
    apply Option.eq_none_iff_forall_ne_some.2
    intro resolvent found
    have inside : literal ∈ resolvent := (mem_resolvent? found).2 ⟨.inl member, different⟩
    have sameVar : literal.complement.var = literal.var :=
      Literal.var_complement (tidyFirst.present literal member)
    have alsoInside : literal.complement ∈ resolvent :=
      (mem_resolvent? found).2 ⟨.inr opposite, sameVar ▸ different⟩
    exact (tidy_resolvent? tidyFirst tidySecond found).unopposed literal inside alsoInside

/-- A resolvent of at least two literals has the form of a clause. -/
theorem admits_resolvent? [Realm] {picture : Picture} (admitsFirst : picture.Admits first)
    (admitsSecond : picture.Admits second) (found : resolvent? pivot first second = some resolvent)
    (two : 2 ≤ resolvent.length) : picture.Admits resolvent := by
  have tidy := tidy_resolvent? (.of_admits admitsFirst) (.of_admits admitsSecond) found
  refine ⟨tidy.sorted, two, fun literal member => ?_, tidy.unopposed⟩
  rcases ((mem_resolvent? found).1 member).1 with inFirst | inSecond
  · exact admitsFirst.present literal inFirst
  · exact admitsSecond.present literal inSecond

/-! ## What a resolvent says -/

/-- Where a resolvent is a tautology one of its clauses holds apart from the
variable. -/
theorem holdsApart_of_none (present : OverVars first)
    (tautology : resolvent? pivot first second = none) :
    HoldsApart pivot values first ∨ HoldsApart pivot values second := by
  obtain ⟨literal, member, different, inside⟩ := clash_of_resolvent?_eq_none present tautology
  by_cases holds : literal.Holds values
  · exact .inl ⟨literal, member, different, holds⟩
  · have positive := present literal member
    refine .inr ⟨literal.complement, inside, ?_, (Literal.holds_complement positive).2 holds⟩
    rw [Literal.var_complement positive]
    exact different

/-- Where a resolvent holds one of its clauses holds apart from the variable. -/
theorem holdsApart_of_some (found : resolvent? pivot first second = some resolvent)
    (holds : ClauseHolds values resolvent) :
    HoldsApart pivot values first ∨ HoldsApart pivot values second := by
  obtain ⟨literal, member, literalHolds⟩ := holds
  obtain ⟨inFirst | inSecond, different⟩ := (mem_resolvent? found).1 member
  · exact .inl ⟨literal, inFirst, different, literalHolds⟩
  · exact .inr ⟨literal, inSecond, different, literalHolds⟩

/-- Where both clauses hold the resolvent does. -/
theorem clauseHolds_resolvent?
    (ownFirst : ∀ other ∈ first, other.var = literal.var → other = literal)
    (ownSecond : ∀ other ∈ second, other.var = literal.var → other = literal.complement)
    (present : 0 < literal.var) (found : resolvent? literal.var first second = some resolvent)
    (holdsFirst : ClauseHolds values first) (holdsSecond : ClauseHolds values second) :
    ClauseHolds values resolvent := by
  obtain ⟨a, inFirst, isTrue⟩ := holdsFirst
  obtain ⟨b, inSecond, alsoTrue⟩ := holdsSecond
  by_cases atFirst : a.var = literal.var
  · by_cases atSecond : b.var = literal.var
    · rw [ownFirst a inFirst atFirst] at isTrue
      rw [ownSecond b inSecond atSecond] at alsoTrue
      exact absurd isTrue ((Literal.holds_complement present).1 alsoTrue)
    · exact ⟨b, (mem_resolvent? found).2 ⟨.inr inSecond, atSecond⟩, alsoTrue⟩
  · exact ⟨a, (mem_resolvent? found).2 ⟨.inl inFirst, atFirst⟩, isTrue⟩

/-- A resolvent follows from its clauses by unit propagation. -/
theorem rup_resolvent {clauses : Set (List Literal)} (inFirst : first ∈ clauses)
    (inSecond : second ∈ clauses) (member : literal ∈ first) (present : 0 < literal.var)
    (ownFirst : ∀ other ∈ first, other.var = literal.var → other = literal)
    (ownSecond : ∀ other ∈ second, other.var = literal.var → other = literal.complement)
    (found : resolvent? literal.var first second = some resolvent) : Rup clauses resolvent := by
  have assumed : ∀ other, other ∈ first ∨ other ∈ second → other.var ≠ literal.var →
      Propagates clauses (negations resolvent) other.complement := fun other inside different =>
    .assumption (mem_negations ((mem_resolvent? found).2 ⟨inside, different⟩))
  have derived : Propagates clauses (negations resolvent) literal := by
    refine .unit inFirst member fun other inside unequal => assumed other (.inl inside) ?_
    exact fun same => unequal (ownFirst other inside same)
  refine ⟨second, inSecond, fun other inside => ?_⟩
  by_cases same : other.var = literal.var
  · rw [ownSecond other inside same, Literal.complement_complement present]
    exact derived
  · exact assumed other (.inr inside) same

/-- A clause that is found to be blocked has only tautologies for resolvents. -/
theorem resolvent?_of_isBlocked? {arena : Arena} {handles : List Handle}
    (blocked : isBlocked? arena pivot first handles = some true) :
    ∀ handle ∈ handles, ∃ partner, arena.get? handle = some partner ∧
      resolvent? pivot first partner.literals = none := by
  induction handles with
  | nil => simp
  | cons handle rest ih =>
    obtain ⟨partner, found, further⟩ := Option.bind_eq_some_iff.1 blocked
    split at further
    next tautology =>
      refine List.forall_mem_cons.2 ⟨⟨partner, found, ?_⟩, ih further⟩
      unfold isTautology at tautology
      rw [size?_eq, Option.isNone_map, Option.isNone_iff_eq_none] at tautology
      exact tautology
    next => cases further

/-- Whether a clause is blocked can be told if all partners are in the arena. -/
theorem exists_isBlocked? {arena : Arena} (pivot : Nat) (literals : List Literal)
    {partners : List Handle}
    (stored : ∀ handle ∈ partners, ∃ partner, arena.get? handle = some partner) :
    ∃ blocked, isBlocked? arena pivot literals partners = some blocked ∧
      (blocked = false → ∃ handle ∈ partners, ∃ partner, arena.get? handle = some partner ∧
        resolvent? pivot literals partner.literals ≠ none) := by
  induction partners with
  | nil => exact ⟨true, rfl, by simp⟩
  | cons handle rest ih =>
    obtain ⟨⟨partner, found⟩, others⟩ := List.forall_mem_cons.1 stored
    simp only [isBlocked?, found, Option.bind_eq_bind, Option.bind_some]
    by_cases tautology : isTautology pivot literals partner.literals = true
    · obtain ⟨blocked, isBlocked, reason⟩ := ih others
      rw [if_pos tautology]
      refine ⟨blocked, isBlocked, fun not => ?_⟩
      obtain ⟨other, member, witness⟩ := reason not
      exact ⟨other, List.mem_cons_of_mem _ member, witness⟩
    · rw [if_neg tautology]
      refine ⟨false, rfl, fun _ => ⟨handle, List.mem_cons_self, partner, found, fun none_ => ?_⟩⟩
      exact tautology (by simp [isTautology, size?_eq, none_])

end Resolution

/-! ## What records change -/

/-- Records that choose one literal all hold at the end. -/
theorem clauseHolds_unwind_of_chosen (chosen : ∀ record ∈ records, record.chosen = literal) :
    ∀ record ∈ records, ClauseHolds (unwind records values) record.literals := by
  induction records with
  | nil => simp
  | cons record rest ih =>
    obtain ⟨own, others⟩ := List.forall_mem_cons.1 chosen
    change ∀ other ∈ record :: rest, ClauseHolds (record.repair (unwind rest values)) other.literals
    refine List.forall_mem_cons.2 ⟨record.clauseHolds_repair _, fun other member => ?_⟩
    unfold Record.repair
    split
    · exact ih others other member
    · -- The repair makes the literal true that the other record chooses as well.
      refine ⟨other.chosen, List.mem_cons_self, ?_⟩
      rw [others other member, own]
      simp [Literal.Holds]

/-- Records that choose one literal change at most its variable. -/
theorem unwind_of_chosen (chosen : ∀ record ∈ records, record.chosen = literal) {name : Nat}
    (different : name ≠ literal.var) : unwind records values name = values name := by
  refine unwind_of_not_chosen fun record member => ?_
  rw [chosen record member]
  exact different.symm

/-- Where all clauses of records hold apart from the variable, nothing changes. -/
theorem unwind_of_holdsApart (apart : ∀ record ∈ records, HoldsApart pivot values record.literals) :
    unwind records values = values := by
  induction records with
  | nil => rfl
  | cons record rest ih =>
    obtain ⟨own, others⟩ := List.forall_mem_cons.1 apart
    change record.repair (unwind rest values) = values
    rw [ih others]
    exact if_pos own.clauseHolds

/-- The records of the clauses with a literal and with its complement. -/
def recordsOfSides (literal : Literal) (positive negative : List (List Literal)) : List Record :=
  positive.map (Record.ofClause literal) ++ negative.map (Record.ofClause literal.complement)

/-- What holds of the records of both sides holds of all. -/
theorem forall_mem_recordsOfSides {positive negative : List (List Literal)} {about : Record → Prop}
    (ofPositive : ∀ literals ∈ positive, about (.ofClause literal literals))
    (ofNegative : ∀ literals ∈ negative, about (.ofClause literal.complement literals)) :
    ∀ record ∈ recordsOfSides literal positive negative, about record := by
  intro record isRecord
  rcases List.mem_append.1 isRecord with fromPositive | fromNegative
  · obtain ⟨literals, member, rfl⟩ := List.mem_map.1 fromPositive
    exact ofPositive literals member
  · obtain ⟨literals, member, rfl⟩ := List.mem_map.1 fromNegative
    exact ofNegative literals member

/-- The records of both sides make all their clauses hold if one side holds apart
from the variable, and they change nothing else. -/
theorem clauseHolds_unwind_recordsOfSides {positive negative : List (List Literal)}
    (present : 0 < literal.var) (withLiteral : ∀ literals ∈ positive, literal ∈ literals)
    (withComplement : ∀ literals ∈ negative, literal.complement ∈ literals)
    (apart : (∀ literals ∈ positive, HoldsApart literal.var values literals) ∨
      ∀ literals ∈ negative, HoldsApart literal.var values literals) :
    (∀ literals ∈ positive ++ negative,
      ClauseHolds (unwind (recordsOfSides literal positive negative) values) literals) ∧
    ∀ name, name ≠ literal.var →
      unwind (recordsOfSides literal positive negative) values name = values name := by
  have chosenPositive : ∀ record ∈ positive.map (Record.ofClause literal),
      record.chosen = literal := by
    simp [Record.ofClause]
  have chosenNegative : ∀ record ∈ negative.map (Record.ofClause literal.complement),
      record.chosen = literal.complement := by
    simp [Record.ofClause]
  generalize later : unwind (negative.map (Record.ofClause literal.complement)) values = middle
  have agreeMiddle : ∀ name, name ≠ literal.var → middle name = values name := by
    intro name different
    rw [← later, unwind_of_chosen chosenNegative]
    rwa [Literal.var_complement present]
  have agree : ∀ name, name ≠ literal.var →
      unwind (recordsOfSides literal positive negative) values name = values name := by
    intro name different
    rw [recordsOfSides, unwind_append, later, unwind_of_chosen chosenPositive different]
    exact agreeMiddle name different
  refine ⟨fun literals member => ?_, agree⟩
  rcases List.mem_append.1 member with isPositive | isNegative
  · have holds : ClauseHolds (unwind (positive.map (Record.ofClause literal)) middle)
        (Record.ofClause literal literals).literals :=
      clauseHolds_unwind_of_chosen chosenPositive _ (List.mem_map_of_mem isPositive)
    rw [recordsOfSides, unwind_append, later]
    exact (Record.clauseHolds_ofClause (withLiteral literals isPositive)).1 holds
  · rcases apart with apart | apart
    · -- Nothing on the positive side is repaired, so the negative side stays repaired.
      have same : unwind (positive.map (Record.ofClause literal)) middle = middle := by
        refine unwind_of_holdsApart fun record isRecord =>
          (?_ : HoldsApart literal.var middle record.literals)
        obtain ⟨other, inside, rfl⟩ := List.mem_map.1 isRecord
        obtain ⟨witness, atWitness, rest⟩ := (apart other inside).of_agree agreeMiddle
        exact ⟨witness, (Record.mem_ofClause (withLiteral other inside)).2 atWitness, rest⟩
      have holds : ClauseHolds middle (Record.ofClause literal.complement literals).literals :=
        later ▸ clauseHolds_unwind_of_chosen chosenNegative _ (List.mem_map_of_mem isNegative)
      rw [recordsOfSides, unwind_append, later, same]
      exact (Record.clauseHolds_ofClause (withComplement literals isNegative)).1 holds
    · exact ((apart literals isNegative).of_agree agree).clauseHolds

end CnfSimplifier
