import CnfSimplifier.Proofs.UnitClosure

/-!
# Propagation misses nothing

A clause only matters to propagation when it has no true literal and at most one free
one. Such a clause waits for one of its literals that became false and whose turn has not
come: the complement of that literal stands at the head of the trail or after it. A visit to
the lists of the literal at the head leaves no clause that waited for it alone, since the
last free literal is assigned, and since a clause that lost a free literal on the way waits
for that one.

So at the end of the trail no clause is left that unit propagation could use. It does
not matter which clauses are visited besides, or in which order.
-/
namespace CnfSimplifier

namespace Arena

/-- The live clauses that have handles. -/
def named (arena : Arena) : Set (List Literal) :=
  {literals | ∃ handle clause, arena.live? handle = some clause ∧ clause.literals = literals}

/-- As long as the slots can be counted with handles, every live clause has one. -/
theorem named_eq_formula {arena : Arena} (space : arena.slots.size ≤ UInt32.size) :
    arena.named = arena.formula := by
  ext literals
  constructor
  · rintro ⟨handle, clause, live, rfl⟩
    exact exists_liveClause (contents_of_live live)
  · rintro ⟨clause, isLive, rfl⟩
    obtain ⟨slot, found, alive⟩ := mem_liveClauses.1 isLive
    exact ⟨_, clause, live?_handleAt space found alive, rfl⟩

end Arena

namespace Trail

variable {trail after start : Trail} {literal other : Literal} {literals : List Literal}
  {arena : Arena} {index : Occurrences} {level : Nat}

/-! ## Values after an assignment -/

/-- Complementary literals have opposite values. -/
theorem literalValue?_complement (present : 0 < literal.var) :
    trail.literalValue? literal.complement = (trail.literalValue? literal).map (Option.map not) := by
  unfold literalValue?
  rw [Literal.var_complement present, Option.map_map]
  congr 1
  funext value
  cases value with
  | none => rfl
  | some sign =>
    cases sign <;> cases isPositive : literal.isPositive <;>
      simp [Literal.valueUnder, Literal.isPositive_complement present, isPositive]

/-- A literal that is assigned is true. -/
theorem literalValue?_push_self (isOpen : trail.literalValue? literal = some none)
    (pushed : trail.push literal level = some after) :
    after.literalValue? literal = some (some true) := by
  obtain ⟨state, found, _⟩ := literalValue?_eq_some.1 isOpen
  have value : trail.value? literal.var = some state.value := by simp [value?, found]
  rw [literalValue?_eq_true, value?_push pushed, if_pos rfl, value]
  rfl

/-- Literals of other variables keep their values. -/
theorem literalValue?_push_of_ne (pushed : trail.push literal level = some after)
    (different : other.var ≠ literal.var) :
    after.literalValue? other = trail.literalValue? other := by
  unfold literalValue?
  rw [value?_push pushed, if_neg different]

/-- Literals with a value keep it when a free one is assigned. -/
theorem literalValue?_push_of_some (isOpen : trail.literalValue? literal = some none)
    (pushed : trail.push literal level = some after) {sign : Bool}
    (known : trail.literalValue? other = some (some sign)) :
    after.literalValue? other = some (some sign) := by
  rw [literalValue?_push_of_ne pushed, known]
  intro same
  obtain ⟨state, found, isNone⟩ := literalValue?_eq_some.1 isOpen
  obtain ⟨again, foundAgain, value⟩ := literalValue?_eq_some.1 known
  rw [same, found, Option.some.injEq] at foundAgain
  subst foundAgain
  simp only [Literal.valueUnder, Option.map_eq_none_iff] at isNone
  simp [Literal.valueUnder, isNone] at value

/-- One variable less is free. -/
theorem numUnassigned_push (isOpen : trail.literalValue? literal = some none)
    (pushed : trail.push literal level = some after) :
    after.numUnassigned + 1 = trail.numUnassigned := by
  obtain ⟨state, found, isNone⟩ := literalValue?_eq_some.1 isOpen
  simp only [Literal.valueUnder, Option.map_eq_none_iff] at isNone
  obtain ⟨inside, here⟩ := List.getElem?_eq_some_iff.1 (Array.getElem?_toList ▸ found)
  unfold numUnassigned
  rw [(push_eq_some pushed).1, ← Array.countP_toList, ← Array.countP_toList, Array.toList_modify,
    List.modify_eq_take_cons_drop inside]
  conv_rhs => rw [← List.take_append_drop literal.var trail.vars.toList,
    List.drop_eq_getElem_cons inside]
  rw [List.countP_append, List.countP_append, List.countP_cons, List.countP_cons, here, isNone]
  simp [Nat.add_assoc]

/-! ## The standing of a clause -/

/-- Where all literals have places in the table the clause can be scanned. -/
theorem exists_standing? {free : Option Literal}
    (inTable : ∀ literal ∈ literals, literal.var < trail.vars.size) :
    ∃ standing, trail.standing? literals free = some standing := by
  induction literals generalizing free with
  | nil => cases free <;> exact ⟨_, rfl⟩
  | cons literal rest ih =>
    obtain ⟨first, others⟩ := List.forall_mem_cons.1 inTable
    unfold standing?
    rw [literalValue?_of_lt first]
    simp only [Option.bind_eq_bind, Option.bind_some]
    split
    · exact ⟨_, rfl⟩
    · exact ih others
    · split
      · exact ih others
      · exact ⟨_, rfl⟩

/-- The clause has a true literal, or two free ones. -/
def Slack (trail : Trail) (literals : List Literal) : Prop :=
  (∃ literal ∈ literals, trail.literalValue? literal = some (some true)) ∨
    ∃ first ∈ literals, ∃ second ∈ literals, first ≠ second ∧
      trail.literalValue? first = some none ∧ trail.literalValue? second = some none

/-- A settled clause has slack, together with the free literal met before. -/
theorem slack_of_standing? {free : Option Literal} (nodup : (free.toList ++ literals).Nodup)
    (isOpen : ∀ met ∈ free, trail.literalValue? met = some none)
    (found : trail.standing? literals free = some .settled) :
    trail.Slack (free.toList ++ literals) := by
  induction literals generalizing free with
  | nil => cases free <;> simp [standing?] at found
  | cons literal rest ih =>
    unfold standing? at found
    obtain ⟨value, known, decided⟩ := Option.bind_eq_some_iff.1 found
    rcases value with _ | _ | _
    · cases free with
      | none => exact @ih (some literal) nodup (by simpa using known) decided
      | some met =>
        have different : met ≠ literal := by
          rintro rfl
          simp at nodup
        exact .inr ⟨met, by simp, literal, by simp, different, isOpen met rfl, known⟩
    · have shorter : (free.toList ++ rest).Sublist (free.toList ++ literal :: rest) :=
        (List.sublist_cons_self literal rest).append_left _
      rcases ih (nodup.sublist shorter) isOpen decided with ⟨other, inside, holds⟩ |
          ⟨first, isFirst, second, isSecond, rest⟩
      · exact .inl ⟨other, shorter.subset inside, holds⟩
      · exact .inr ⟨first, shorter.subset isFirst, second, shorter.subset isSecond, rest⟩
    · exact .inl ⟨literal, by simp, known⟩

/-! ## Clauses that wait for a literal -/

/-- A literal of the clause became false, and its turn has not come. -/
def Awaited (trail : Trail) (literals : List Literal) : Prop :=
  ∃ literal ∈ literals, literal.complement ∈ trail.literals.toList.drop trail.head

/-- Parts that propagation can work on: every clause is in the lists of its literals, and
there are places for all literals. The lists may have other handles as well. -/
structure Fits (arena : Arena) (index : Occurrences) (trail : Trail) : Prop where
  head : trail.head ≤ trail.literals.size
  clauses : ∀ handle clause, arena.live? handle = some clause → ∀ literal ∈ clause.literals,
    0 < literal.var ∧ literal.var < trail.vars.size
  named : ∀ literal ∈ trail.literals.toList, 0 < literal.var ∧ literal.var < trail.vars.size
  listed : ∀ literal : Literal, literal.var < trail.vars.size →
    ∃ handles, index.list? literal = some handles ∧ ∀ handle clause,
      arena.live? handle = some clause → literal ∈ clause.literals → handle ∈ handles.toList

/-- Every clause has slack, waits for a literal, or is still to be visited. -/
def Attends (arena : Arena) (trail : Trail) (visiting : Handle → Clause → Prop) : Prop :=
  ∀ handle clause, arena.live? handle = some clause →
    trail.Slack clause.literals ∨ trail.Awaited clause.literals ∨ visiting handle clause

/-- Nothing is still to be visited. -/
abbrev AttendsAll (arena : Arena) (trail : Trail) : Prop := Attends arena trail fun _ _ => False

/-- The clause of a handle is falsified. -/
def FalsifiedAt (arena : Arena) (trail : Trail) (handle : Handle) : Prop :=
  ∃ clause, arena.live? handle = some clause ∧
    ∀ literal ∈ clause.literals, trail.literalValue? literal = some (some false)

variable {visiting : Handle → Clause → Prop}

theorem Attends.imp {more : Handle → Clause → Prop} (attends : Attends arena trail visiting)
    (granted : ∀ handle clause, arena.live? handle = some clause → visiting handle clause →
      trail.Slack clause.literals ∨ more handle clause) : Attends arena trail more := by
  intro handle clause live
  rcases attends handle clause live with slack | awaited | toVisit
  · exact .inl slack
  · exact .inr (.inl awaited)
  · exact (granted handle clause live toVisit).imp_right .inr

section Push

variable (isOpen : trail.literalValue? literal = some none)
  (pushed : trail.push literal level = some after)

include isOpen pushed

/-- With one more literal the trail still fits its tables. -/
theorem Fits.push (fits : Fits arena index trail) (present : 0 < literal.var) :
    Fits arena index after := by
  obtain ⟨_, list, _, head⟩ := push_eq_some pushed
  have size := (sameFlags_push pushed).size
  obtain ⟨state, found, _⟩ := literalValue?_eq_some.1 isOpen
  have inside : literal.var < trail.vars.size := (Array.getElem?_eq_some_iff.1 found).1
  refine ⟨?_, ?_, ?_, ?_⟩
  · rw [head, list, Array.size_push]
    exact Nat.le_succ_of_le fits.head
  · rw [size]
    exact fits.clauses
  · rw [list, size, Array.toList_push]
    exact List.forall_mem_append.2 ⟨fits.named, by simpa using ⟨present, inside⟩⟩
  · rw [size]
    exact fits.listed

omit isOpen in
/-- A clause that waits goes on waiting. -/
theorem Awaited.push (awaited : trail.Awaited literals) : after.Awaited literals := by
  obtain ⟨_, list, _, head⟩ := push_eq_some pushed
  obtain ⟨other, inside, waits⟩ := awaited
  refine ⟨other, inside, ?_⟩
  rw [list, head, Array.toList_push, List.drop_append]
  exact List.mem_append_left _ waits

/-- A clause has slack still, or it waits for the literal that became false. -/
theorem Slack.push (head : trail.head ≤ trail.literals.size)
    (proper : ∀ other ∈ literals, 0 < other.var) (slack : trail.Slack literals) :
    after.Slack literals ∨ after.Awaited literals := by
  have waits : ∀ other ∈ literals, other.var = literal.var →
      after.Slack literals ∨ after.Awaited literals := by
    intro other inside same
    by_cases isLiteral : other = literal
    · exact .inl (.inl ⟨literal, isLiteral ▸ inside, literalValue?_push_self isOpen pushed⟩)
    · obtain ⟨_, list, _, sameHead⟩ := push_eq_some pushed
      refine .inr ⟨other, inside, ?_⟩
      have complement : other.complement = literal :=
        ((Literal.eq_or_eq_complement (proper other inside) same.symm).resolve_left
          fun again => isLiteral again.symm).symm
      rw [list, sameHead, Array.toList_push, complement,
        List.drop_append_of_le_length (by simpa using head)]
      simp
  rcases slack with ⟨other, inside, holds⟩ | ⟨first, isFirst, second, isSecond, different, free⟩
  · exact .inl (.inl ⟨other, inside, literalValue?_push_of_some isOpen pushed holds⟩)
  · by_cases sameFirst : first.var = literal.var
    · exact waits first isFirst sameFirst
    by_cases sameSecond : second.var = literal.var
    · exact waits second isSecond sameSecond
    refine .inl (.inr ⟨first, isFirst, second, isSecond, different, ?_, ?_⟩)
    · rw [literalValue?_push_of_ne pushed sameFirst, free.1]
    · rw [literalValue?_push_of_ne pushed sameSecond, free.2]

/-- With one more literal the clauses visited so far are attended to. -/
theorem Attends.push (fits : Fits arena index trail) (attends : Attends arena trail visiting) :
    Attends arena after visiting := by
  intro handle clause live
  rcases attends handle clause live with slack | awaited | toVisit
  · refine (slack.push isOpen pushed fits.head fun other inside => ?_).imp_right .inl
    exact (fits.clauses handle clause live other inside).1
  · exact .inr (.inl (awaited.push pushed))
  · exact .inr (.inr toVisit)

end Push

/-! ## Visits -/

/-- A clause with slack needs no visit. -/
theorem Attends.skip {falsified : Literal} {handle : Handle} {rest : List Handle}
    (attends : Attends arena trail fun other clause =>
      falsified ∈ clause.literals ∧ other ∈ handle :: rest)
    (done : ∀ clause, arena.live? handle = some clause → falsified ∈ clause.literals →
      trail.Slack clause.literals) :
    Attends arena trail fun other clause => falsified ∈ clause.literals ∧ other ∈ rest := by
  refine attends.imp fun other clause live ⟨inside, member⟩ => ?_
  rcases List.mem_cons.1 member with rfl | later
  · exact .inl (done clause live inside)
  · exact .inr ⟨inside, later⟩

/-- A visit leaves no clause of the listed ones that waited for the false literal. -/
theorem visit_finishes {falsified : Literal} {handles : List Handle} (fits : Fits arena index trail)
    (attends : Attends arena trail fun handle clause =>
      falsified ∈ clause.literals ∧ handle ∈ handles) :
    (visit arena falsified handles).Finishes trail (fun conflict after =>
      match conflict with
      | some handle => FalsifiedAt arena after handle
      | none => Fits arena index after ∧ AttendsAll arena after ∧ after.head = trail.head ∧
          after.literals.size + after.numUnassigned = trail.literals.size + trail.numUnassigned)
      fun _ _ => False := by
  induction handles generalizing trail with
  | nil =>
    exact .pure ⟨fits, attends.imp fun _ _ _ ⟨_, none_⟩ => absurd none_ List.not_mem_nil, rfl, rfl⟩
  | cons handle rest ih =>
    unfold visit
    split
    next absent =>
      refine ih fits (attends.skip fun clause live => ?_)
      rw [(Arena.live?_eq_some.1 live).1] at absent
      cases absent
    next clause found =>
    split
    next passed =>
      refine ih fits (attends.skip fun other live inside => ?_)
      obtain ⟨again, alive⟩ := Arena.live?_eq_some.1 live
      rw [found, Option.some.injEq] at again
      subst again
      simp [alive, Clause.contains, inside] at passed
    next alive =>
      rw [Bool.or_eq_true, not_or] at alive
      have live := Arena.live?_of_alive found alive.1
      have inTable := fits.clauses handle clause live
      have only : ∀ other, arena.live? handle = some other → other = clause := fun other again =>
        Option.some.inj (again.symm.trans live)
      obtain ⟨standing, scanned⟩ : ∃ standing,
          trail.standing? clause.literals none = some standing :=
        exists_standing? fun literal inside => (inTable literal inside).2
      refine .step (Run.read_of_eq_some scanned) ?_
      cases standing with
      | settled =>
        refine ih fits (attends.skip fun other again _ => ?_)
        rw [only other again]
        have nodup := Literal.nodup_of_pairwise_lt clause.sorted
        have slack : trail.Slack ((none : Option Literal).toList ++ clause.literals) :=
          slack_of_standing? (by simpa using nodup) (by simp) scanned
        exact slack
      | unit literal =>
        rcases standing?_unit scanned with ⟨impossible, _⟩ | ⟨_, member, isOpen, _⟩
        · cases impossible
        obtain ⟨present, inside⟩ := inTable literal member
        obtain ⟨after, pushed⟩ := exists_push inside trail.level
        refine .step (Run.update_of_eq_some pushed) ?_
        have settles : Attends arena after fun handle clause =>
            falsified ∈ clause.literals ∧ handle ∈ rest := by
          refine (attends.push isOpen pushed fits).skip fun other again _ => ?_
          rw [only other again]
          exact .inl ⟨literal, member, literalValue?_push_self isOpen pushed⟩
        refine (ih (fits.push isOpen pushed present) settles).imp (fun conflict last holds => ?_)
          fun _ _ no => no
        cases conflict with
        | some handle => exact holds
        | none =>
          obtain ⟨fitsLast, attendsLast, head, balance⟩ := holds
          obtain ⟨_, list, _, sameHead⟩ := push_eq_some pushed
          have fewer := numUnassigned_push isOpen pushed
          refine ⟨fitsLast, attendsLast, head.trans sameHead, balance.trans ?_⟩
          rw [list, Array.size_push]
          omega
      | falsified =>
        refine .step rfl (.pure ?_)
        exact ⟨clause, live, (standing?_falsified scanned).2⟩

/-- Every round takes one literal from the head. What is left to do is counted by the
literals from the head on and the variables without a value. -/
theorem propagateLoop_finishes (fuel : Nat) (fits : Fits arena index trail)
    (attends : AttendsAll arena trail)
    (enough : trail.literals.size - trail.head + trail.numUnassigned < fuel) :
    (propagateLoop arena index fuel).Finishes trail (fun conflict after =>
      match conflict with
      | some handle => FalsifiedAt arena after handle
      | none => Fits arena index after ∧ AttendsAll arena after ∧
          after.head = after.literals.size) fun _ _ => False := by
  induction fuel generalizing trail with
  | zero => exact absurd enough (Nat.not_lt_zero _)
  | succ fuel ih =>
    unfold propagateLoop
    refine .step rfl ?_
    split
    next done =>
      have atEnd := Array.getElem?_eq_none_iff.1 done
      exact .pure ⟨fits, attends, Nat.le_antisymm fits.head atEnd⟩
    next literal here =>
      have inTrail : trail.head < trail.literals.size := (Array.getElem?_eq_some_iff.1 here).1
      have onTrail : literal ∈ trail.literals.toList :=
        Array.mem_toList_iff.2 (Array.mem_of_getElem? here)
      obtain ⟨present, inTable⟩ := fits.named literal onTrail
      obtain ⟨handles, list, complete⟩ := fits.listed literal.complement
        (by rwa [Literal.var_complement present])
      let next : Trail := { trail with head := trail.head + 1 }
      have fitsNext : Fits arena index next := ⟨inTrail, fits.clauses, fits.named, fits.listed⟩
      -- What waited for the literal at the head is listed for its complement.
      have attendsNext : Attends arena next fun handle clause =>
          literal.complement ∈ clause.literals ∧ handle ∈ handles.toList := by
        intro handle clause live
        rcases attends handle clause live with slack | ⟨other, inside, waits⟩ | no
        · exact .inl slack
        · have split : trail.literals.toList.drop trail.head =
              literal :: trail.literals.toList.drop (trail.head + 1) := by
            rw [List.drop_eq_getElem_cons (by simpa using inTrail)]
            congr 1
            rw [Array.getElem_toList]
            exact (Array.getElem?_eq_some_iff.1 here).2
          rw [split] at waits
          rcases List.mem_cons.1 waits with same | later
          · have isComplement : literal.complement = other := by
              rw [← same, Literal.complement_complement
                (fits.clauses handle clause live other inside).1]
            rw [isComplement]
            rw [isComplement] at complete
            exact .inr (.inr ⟨inside, complete handle clause live inside⟩)
          · exact .inr (.inl ⟨other, inside, later⟩)
        · exact no.elim
      refine .step rfl (.step (Run.access_of_eq_some list) ?_)
      refine (visit_finishes fitsNext attendsNext).bind fun conflict after holds => ?_
      cases conflict with
      | some handle => exact .pure holds
      | none =>
        obtain ⟨fitsAfter, attendsAfter, head, balance⟩ := holds
        refine ih fitsAfter attendsAfter ?_
        change after.head = trail.head + 1 at head
        change _ = trail.literals.size + trail.numUnassigned at balance
        have := fitsAfter.head
        omega

/-! ## What propagation derives -/

/-- The literals that are true. -/
def truths (trail : Trail) : Set Literal :=
  {literal | 0 < literal.var ∧ trail.literalValue? literal = some (some true)}

/-- The complements of true literals are the false ones. -/
theorem complement_mem_truths (present : 0 < literal.var) :
    literal.complement ∈ trail.truths ↔ trail.literalValue? literal = some (some false) := by
  have sameVar := Literal.var_complement present
  unfold truths
  rw [Set.mem_ofPred_eq, literalValue?_complement present, sameVar]
  simp [present]

theorem complement_notMem_truths (holds : literal ∈ trail.truths) :
    literal.complement ∉ trail.truths := by
  rw [complement_mem_truths holds.1, holds.2]
  simp

/-- An assignment makes one literal more true. -/
theorem mem_truths_push (isOpen : trail.literalValue? literal = some none)
    (pushed : trail.push literal level = some after) (present : 0 < literal.var) :
    other ∈ after.truths ↔ other ∈ trail.truths ∨ other = literal := by
  have isTrue : literal ∈ after.truths := ⟨present, literalValue?_push_self isOpen pushed⟩
  constructor
  · intro holds
    by_cases same : other.var = literal.var
    · refine .inr ((Literal.eq_or_eq_complement present same).resolve_right ?_)
      rintro rfl
      exact complement_notMem_truths isTrue holds
    · refine .inl ⟨holds.1, ?_⟩
      rw [← literalValue?_push_of_ne pushed same]
      exact holds.2
  · rintro (holds | rfl)
    · exact ⟨holds.1, literalValue?_push_of_some isOpen pushed holds.2⟩
    · exact isTrue

/-- The true literals follow by unit propagation from those at the start. -/
structure Infers (clauses : Set (List Literal)) (start trail : Trail) : Prop where
  size : trail.vars.size = start.vars.size
  stays : start.truths ⊆ trail.truths
  derived : ∀ literal ∈ trail.truths, Propagates clauses start.truths literal

theorem Infers.refl {clauses : Set (List Literal)} : Infers clauses start start :=
  ⟨rfl, subset_rfl, fun _ holds => .assumption holds⟩

/-- The last free literal of a clause may be assigned. -/
theorem keptByUnits_infers (fits : Fits arena index start) :
    KeptByUnits arena (Infers arena.named start) := by
  intro trail after handle clause literal infers live member isOpen falsified pushed
  have present := fits.clauses handle clause live
  have follows : Propagates arena.named start.truths literal := by
    refine .unit ⟨handle, clause, live, rfl⟩ member
      fun other inside different => infers.derived _ ?_
    exact (complement_mem_truths (present other inside).1).2 (falsified other inside different)
  have truths : ∀ other, other ∈ after.truths ↔ other ∈ trail.truths ∨ other = literal :=
    fun other => mem_truths_push isOpen pushed (present literal member).1
  refine ⟨(sameFlags_push pushed).size.trans infers.size, fun other holds => ?_, fun other holds => ?_⟩
  · exact (truths other).2 (.inl (infers.stays holds))
  · rcases (truths other).1 holds with before | rfl
    · exact infers.derived other before
    · exact follows

/-- Clauses with slack admit no unit propagation. -/
theorem saturates_truths {clauses : Set (List Literal)}
    (proper : ∀ literals ∈ clauses, ∀ literal ∈ literals, 0 < literal.var)
    (slack : ∀ literals ∈ clauses, trail.Slack literals) : Saturates trail.truths clauses := by
  intro literals stored
  have present := proper literals stored
  have isOpen : ∀ literal ∈ literals, trail.literalValue? literal = some none →
      literal.complement ∉ trail.truths := by
    intro literal inside free
    rw [complement_mem_truths (present literal inside), free]
    simp
  rcases slack literals stored with ⟨literal, inside, holds⟩ |
      ⟨first, isFirst, second, isSecond, different, freeFirst, freeSecond⟩
  · exact .inl ⟨literal, inside, present literal inside, holds⟩
  · exact .inr ⟨first, isFirst, second, isSecond, different, isOpen first isFirst freeFirst,
      isOpen second isSecond freeSecond⟩

/-- How propagation ended: with a falsified clause, or at the end of the trail. -/
structure Propagated (arena : Arena) (clauses : Set (List Literal)) (start : Trail)
    (conflict : Option Handle) (after : Trail) : Prop where
  derived : ∀ literal ∈ after.truths, Propagates clauses start.truths literal
  falsified : ∀ handle, conflict = some handle → FalsifiedAt arena after handle ∧
    Conflicts clauses start.truths
  complete : conflict = none → after.head = after.literals.size ∧
    (∀ literals ∈ clauses, after.Slack literals) ∧
    (∀ literal, Propagates clauses start.truths literal → literal ∈ after.truths) ∧
    ¬ Conflicts clauses start.truths

/-- Propagation comes to an end. It finds a falsified clause if and only if unit propagation
finds a conflict; otherwise the true literals are the closure of those before. -/
theorem propagate_finishes (fits : Fits arena index trail) (attends : AttendsAll arena trail) :
    (propagate arena index).Finishes trail (fun conflict after =>
      Propagated arena arena.named trail conflict after) fun _ _ => False := by
  have proper : ∀ literals ∈ arena.named, ∀ literal ∈ literals, 0 < literal.var := by
    rintro _ ⟨handle, clause, live, rfl⟩ literal inside
    exact (fits.clauses handle clause live literal inside).1
  have infers : (propagate arena index).Ends trail _ _ :=
    propagate_keeps (fun trail _ _ (infers : Infers _ _ trail) =>
      ⟨infers.size, infers.stays, infers.derived⟩) (keptByUnits_infers fits) .refl
  have finishes : (propagate arena index).Finishes trail _ _ :=
    .step rfl (propagateLoop_finishes _ fits attends (Nat.lt_succ_self _))
  refine (finishes.and_ends infers).imp (fun conflict after ⟨ended, infers, _⟩ => ?_)
    fun _ _ ⟨no, _⟩ => no
  refine ⟨infers.derived, ?_, ?_⟩
  · rintro handle rfl
    obtain ⟨clause, live, falsified⟩ := ended
    have stored : clause.literals ∈ arena.named := ⟨handle, clause, live, rfl⟩
    refine ⟨⟨clause, live, falsified⟩, clause.literals, stored, fun literal inside => ?_⟩
    exact infers.derived _ ((complement_mem_truths (proper _ stored literal inside)).2
      (falsified literal inside))
  · rintro rfl
    obtain ⟨fitsAfter, attendsAfter, atEnd⟩ := ended
    have slack : ∀ literals ∈ arena.named, after.Slack literals := by
      rintro _ ⟨handle, clause, live, rfl⟩
      rcases attendsAfter handle clause live with slack | ⟨other, _, waits⟩ | no
      · exact slack
      · rw [atEnd, ← Array.length_toList, List.drop_length] at waits
        cases waits
      · exact no.elim
    have saturates := saturates_truths proper slack
    have consistent : ∀ literal ∈ after.truths, literal.complement ∉ after.truths :=
      fun _ => complement_notMem_truths
    exact ⟨atEnd, slack, fun literal => saturates.mem_of_propagates consistent infers.stays,
      saturates.not_conflicts consistent infers.stays⟩

end Trail

end CnfSimplifier
