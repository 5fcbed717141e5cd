import CnfSimplifier.Proofs.ExactProbing

/-!
# What propagation decides

Seen from outside: a clause is falsified, or it has one free literal and no true one, or it
has slack. Propagation may start where every clause of the first two kinds has a literal
whose complement was not taken from the trail yet. It comes to an end there, appends what
the clauses and the true literals imply, and answers with a falsified clause exactly if unit
propagation is conflicting. Without an answer no clause of the first two kinds is left.
-/
namespace CnfSimplifier

namespace Trail

variable {trail after start : Trail} {literals : List Literal} {arena : Arena}
  {index : Occurrences} {conflict : Option Handle}

/-! ## How a clause stands -/

/-- All literals are false. -/
def AllFalse (trail : Trail) (literals : List Literal) : Prop :=
  ∀ literal ∈ literals, trail.literalValue? literal = some (some false)

/-- One literal is free, and the others are false. -/
def OneFree (trail : Trail) (literals : List Literal) : Prop :=
  ∃ literal ∈ literals, trail.literalValue? literal = some none ∧
    ∀ other ∈ literals, other ≠ literal → trail.literalValue? other = some (some false)

/-- What has slack is neither falsified nor left with one free literal. -/
theorem slack_iff (inTable : ∀ literal ∈ literals, literal.var < trail.vars.size) :
    trail.Slack literals ↔ ¬ trail.AllFalse literals ∧ ¬ trail.OneFree literals := by
  constructor
  · rintro (⟨literal, inside, holds⟩ | ⟨first, isFirst, second, isSecond, different, free, alsoFree⟩)
    · refine ⟨fun allFalse => ?_, fun ⟨free, _, isFree, others⟩ => ?_⟩
      · simp [allFalse literal inside] at holds
      · by_cases same : literal = free
        · simp [same, isFree] at holds
        · simp [others literal inside same] at holds
    · refine ⟨fun allFalse => ?_, fun ⟨literal, _, _, others⟩ => ?_⟩
      · simp [allFalse first isFirst] at free
      · by_cases same : first = literal
        · simp [others second isSecond (same ▸ different.symm)] at alsoFree
        · simp [others first isFirst same] at free
  · rintro ⟨notAllFalse, notOneFree⟩
    by_contra noSlack
    rw [Slack, not_or] at noSlack
    obtain ⟨noneTrue, noTwo⟩ := noSlack
    have false_or_free : ∀ literal ∈ literals, trail.literalValue? literal = some (some false) ∨
        trail.literalValue? literal = some none := by
      intro literal inside
      have known := literalValue?_of_lt (inTable literal inside)
      rcases value : trail.literalValue? literal with _ | _ | _ | _
      · rw [value] at known
        cases known
      · exact .inr rfl
      · exact .inl rfl
      · exact absurd ⟨literal, inside, value⟩ noneTrue
    by_cases isFree : ∃ literal ∈ literals, trail.literalValue? literal = some none
    · obtain ⟨literal, inside, free⟩ := isFree
      refine notOneFree ⟨literal, inside, free, fun other isOther different => ?_⟩
      refine (false_or_free other isOther).resolve_right fun alsoFree => ?_
      exact noTwo ⟨other, isOther, literal, inside, different, alsoFree, free⟩
    · refine notAllFalse fun literal inside => ?_
      exact (false_or_free literal inside).resolve_right fun free => isFree ⟨literal, inside, free⟩

/-! ## From the start to the end -/

/-- Every clause that is falsified or has one free literal waits for a literal. -/
def Queued (arena : Arena) (trail : Trail) : Prop :=
  ∀ handle clause, arena.live? handle = some clause →
    trail.AllFalse clause.literals ∨ trail.OneFree clause.literals →
      trail.Awaited clause.literals

/-- The other clauses have slack. -/
theorem queued_iff (fits : Fits arena index trail) : Queued arena trail ↔ AttendsAll arena trail := by
  have inTable : ∀ handle clause, arena.live? handle = some clause →
      ∀ literal ∈ clause.literals, literal.var < trail.vars.size :=
    fun handle clause live literal inside => (fits.clauses handle clause live literal inside).2
  constructor
  · intro queued handle clause live
    by_cases slack : trail.Slack clause.literals
    · exact .inl slack
    · rw [slack_iff (inTable handle clause live)] at slack
      exact .inr (.inl (queued handle clause live (by tauto)))
  · intro attends handle clause live tight
    rcases attends handle clause live with slack | awaited | no
    · rw [slack_iff (inTable handle clause live)] at slack
      tauto
    · exact awaited
    · exact no.elim

/-- Literals that were free were appended, and they are the new true literals. -/
structure Appends (start trail : Trail) (new : List Literal) : Prop where
  size : trail.vars.size = start.vars.size
  list : trail.literals.toList = start.literals.toList ++ new
  free : ∀ literal ∈ new, start.literalValue? literal = some none
  truths : ∀ literal, literal ∈ trail.truths ↔ literal ∈ start.truths ∨ literal ∈ new

theorem Appends.refl : Appends start start [] := ⟨rfl, by simp, by simp, by simp⟩

/-- An implied literal is appended. -/
theorem Appends.imply {new : List Literal} {literal : Literal} (appends : Appends start trail new)
    (present : 0 < literal.var) (isOpen : trail.literalValue? literal = some none)
    (pushed : trail.imply literal = some after) : Appends start after (new ++ [literal]) := by
  obtain ⟨_, list, _, _⟩ := push_eq_some pushed
  have unvalued : ∀ {other : Literal}, other ∈ start.truths → other.var ≠ literal.var := by
    intro other holds same
    have still := ((appends.truths other).2 (.inl holds)).2
    obtain ⟨state, found, isNone⟩ := literalValue?_eq_some.1 isOpen
    obtain ⟨again, foundAgain, isTrue⟩ := literalValue?_eq_some.1 still
    rw [same, found, Option.some.injEq] at foundAgain
    subst foundAgain
    simp only [Literal.valueUnder, Option.map_eq_none_iff] at isNone
    simp [Literal.valueUnder, isNone] at isTrue
  -- The variable has a place in the table, and had no value at the start either.
  have free : start.literalValue? literal = some none := by
    obtain ⟨state, found, _⟩ := literalValue?_eq_some.1 isOpen
    have inTable : literal.var < start.vars.size :=
      appends.size ▸ (Array.getElem?_eq_some_iff.1 found).1
    have known := literalValue?_of_lt inTable
    rcases value : start.literalValue? literal with _ | _ | _ | _
    · rw [value] at known
      cases known
    · rfl
    · refine absurd (Literal.var_complement present) (unvalued ?_)
      exact (complement_mem_truths present).2 value
    · exact absurd rfl (unvalued ⟨present, value⟩)
  refine ⟨(sameFlags_push pushed).size.trans appends.size, ?_, ?_, fun other => ?_⟩
  · rw [list, Array.toList_push, appends.list, List.append_assoc]
  · exact List.forall_mem_append.2 ⟨appends.free, by simpa using free⟩
  · rw [mem_truths_push isOpen pushed present, appends.truths, List.mem_append, List.mem_singleton,
      or_assoc]

/-- Propagation appends literals that were free. -/
theorem propagate_appends (fits : Fits arena index start) :
    (propagate arena index).Ends start (fun _ after => ∃ new, Appends start after new)
      fun _ _ => False := by
  have kept : KeptByUnits arena fun trail => ∃ new, Appends start trail new := by
    rintro trail after handle clause literal ⟨new, appends⟩ live member isOpen _ pushed
    have present := (fits.clauses handle clause live literal member).1
    exact ⟨_, appends.imply present isOpen pushed⟩
  have moved : ∀ (trail : Trail) (head : Nat), (∃ new, Appends start trail new) →
      ∃ new, Appends start { trail with head := head } new :=
    fun _ _ ⟨new, appends⟩ => ⟨new, appends.size, appends.list, appends.free, appends.truths⟩
  exact (propagate_keeps (fun _ _ _ => moved _ _) kept ⟨[], .refl⟩).imp (fun _ _ => And.left) fun _ _ no => no

/-- What propagation did to a trail, and what its answer says. -/
structure Decides (arena : Arena) (start : Trail) (conflict : Option Handle) (after : Trail) :
    Prop where
  appended : ∃ new, Appends start after new
  derived : ∀ literal ∈ after.truths, Propagates arena.named start.truths literal
  implied : ∀ literal ∈ after.truths, ∀ values : Assignment,
    (∀ literals ∈ arena.named, ClauseHolds values literals) →
      (∀ known ∈ start.truths, known.Holds values) → literal.Holds values
  falsified : ∀ handle, conflict = some handle →
    ∃ clause, arena.live? handle = some clause ∧ after.AllFalse clause.literals
  complete : conflict = none → after.head = after.literals.size ∧
    ∀ handle clause, arena.live? handle = some clause →
      ¬ after.AllFalse clause.literals ∧ ¬ after.OneFree clause.literals
  conflicting : conflict.isSome = true ↔ Conflicts arena.named start.truths

/-- Propagation comes to an end. What it assigns is implied by the live clauses and the
values at the start. A clause it returns is live and falsified; where it returns none the
head is at the end of the trail, and no live clause is falsified or has one free literal and
no true one. It returns a clause exactly if unit propagation from the values at the start is
conflicting. -/
theorem propagate_decides (fits : Fits arena index start) (queued : Queued arena start) :
    (propagate arena index).Finishes start (fun conflict after =>
      Decides arena start conflict after) fun _ _ => False := by
  refine ((propagate_finishes fits ((queued_iff fits).1 queued)).and_ends
    (propagate_appends fits)).imp ?_ fun _ _ ⟨no, _⟩ => no
  rintro conflict after ⟨propagated, new, appends⟩
  have proper : ∀ literals ∈ arena.named, OverVars literals := by
    rintro _ ⟨handle, clause, live, rfl⟩ literal inside
    exact (fits.clauses handle clause live literal inside).1
  refine ⟨⟨new, appends⟩, propagated.derived, fun literal holds values satisfied granted => ?_, ?_, ?_, ?_⟩
  · exact (propagated.derived literal holds).holds proper satisfied granted
  · intro handle found
    exact (propagated.falsified handle found).1
  · intro found
    obtain ⟨atEnd, slack, _, _⟩ := propagated.complete found
    refine ⟨atEnd, fun handle clause live => ?_⟩
    have inTable : ∀ literal ∈ clause.literals, literal.var < after.vars.size := by
      rw [appends.size]
      exact fun literal inside => (fits.clauses handle clause live literal inside).2
    exact (slack_iff inTable).1 (slack _ ⟨handle, clause, live, rfl⟩)
  · cases conflict with
    | none => simpa using (propagated.complete rfl).2.2.2
    | some handle => simpa using (propagated.falsified handle rfl).2

/-- Three literals follow from one, and a clause has only false literals then. -/
theorem propagate_decides_conflict :
    ∃ (arena : Arena) (index : Occurrences) (start after : Trail) (conflict : Handle),
      Fits arena index start ∧ Queued arena start ∧
      propagate arena index start = .done (some conflict) after ∧
      after.literals.toList.map Literal.toInt = [1, 2, 3, 4] ∧
      Decides arena start (some conflict) after := by
  obtain ⟨_, made, isMade, isOpen, current, head, free, evaluated⟩ :
      (Simplifier.addClauses [[-1, 2], [-1, 3], [-2, -3, 4], [-2, -3, -4]]).Returns (.ofVars {} 4)
        fun _ made => made.engine.unsat = false ∧
          made.engine.trail.literals.size ≤ made.engine.applied ∧
          made.engine.trail.head ≤ made.engine.trail.literals.size ∧
          made.engine.trail.literalValue? (.ofVar 1 true) = some none ∧
          (made.engine.trail.imply (.ofVar 1 true)).any fun start =>
            decide ((propagate made.engine.arena made.engine.index).Returns start
              fun conflict after => conflict.isSome ∧
                after.literals.toList.map Literal.toInt = [1, 2, 3, 4]) := by
    decide +kernel
  obtain ⟨start, implied, returned⟩ := (Option.any_eq_true _ _).1 evaluated
  obtain ⟨result, after, ended, conflicted, list⟩ := of_decide_eq_true returned
  obtain ⟨conflict, rfl⟩ := Option.isSome_iff_exists.1 conflicted
  obtain ⟨ready, kept⟩ := Simplifier.ready_of_ofClauses isMade (by decide) isOpen
  let _ : Realm := .rootLenient
  have able : Probing.Able made.engine :=
    ⟨ready.rootSound kept, ⟨current, ready.settled⟩, head⟩
  have fits : Fits made.engine.arena made.engine.index start :=
    (able.fits head).push free implied (by decide)
  have queued : Queued made.engine.arena start :=
    (queued_iff fits).2 (able.attends.push free implied (able.fits head))
  exact ⟨made.engine.arena, made.engine.index, start, after, conflict, fits, queued, ended, list,
    (propagate_decides fits queued).ends.done_of_eq ended⟩

end Trail

end CnfSimplifier
