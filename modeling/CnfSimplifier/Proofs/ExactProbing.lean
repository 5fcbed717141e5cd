import CnfSimplifier.Proofs.CompletePropagation
import CnfSimplifier.Proofs.RootLevels

/-!
# What a probe learns

A probe opens a level, assumes a literal, propagates it and closes the level. Where the
root literals were applied no clause mentions their variables, so what propagation adds
is exactly what unit propagation derives from the live clauses and the assumed literal;
and closing the level brings back the trail as it was.

So probing both literals of a variable adds to the root the complement of a literal
that leads to a conflict, or else what both literals lead to, together with all that unit
propagation derives from that.
-/
namespace CnfSimplifier

namespace Engine

variable {engine before middle after : Engine} {literal : Literal}

/-- Work on the assignment finishes in the engine. -/
theorem onTrail_finishes {α : Type} {body : Arena → Occurrences → Run Trail α}
    {done : α → Trail → Prop} {failed : Error → Trail → Prop}
    (finishes : (body engine.arena engine.index).Finishes engine.trail done failed) :
    (onTrail body).Finishes engine
      (fun value after => ∃ trail, after = { engine with trail := trail } ∧ done value trail)
      fun cause after => ∃ trail, after = { engine with trail := trail } ∧ failed cause trail where
  ends := .within (onTrail_apply _ _) (finishes.ends.imp
    (fun _ trail holds => ⟨trail, rfl, holds⟩) fun _ trail holds => ⟨trail, rfl, holds⟩)
  safe := .within (onTrail_apply _ _) finishes.safe

/-- The root literals are the closure of some literals under unit propagation, and the
clauses are what it leaves of them. -/
structure ClosesFrom (before : Engine) (assumed : Set Literal) (after : Engine) : Prop where
  root : ∀ literal, literal ∈ after.trail.rootLiterals ↔
    Propagates before.arena.formula assumed literal
  clauses : before.arena.ReducesTo after.trail.rootLiterals after.arena

/-- No level is open, the trail goes on where it ended, and every value stands on it. -/
structure BackAtRoot (before after : Engine) : Prop where
  levels : after.trail.levels = #[]
  appended : before.trail.literals.toList <+: after.trail.literals.toList
  values : after.trail.Agrees

theorem formula_subset_picture : engine.arena.formula ⊆ engine.picture.formula := by
  rintro _ ⟨clause, live, rfl⟩
  exact .inl (Arena.literals_mem_contents live)

section Root

variable [Realm]

/-- Where clauses are as before, applying the root literals closes them. -/
theorem closesFrom_propagateUnits (sound : middle.Sound) (strict : ¬ Realm.Lenient)
    (settled : middle.Settled) (arena : middle.arena = before.arena) {assumed : Set Literal}
    (root : ∀ literal, literal ∈ middle.trail.facts ↔ literal ∈ assumed) :
    propagateUnits.Finishes middle
      (fun _ after => ¬ Conflicts before.arena.formula assumed ∧ before.ClosesFrom assumed after)
      fun cause _ => cause.isUnsat = true ∧ Conflicts before.arena.formula assumed := by
  have sameRoot : middle.trail.root = assumed := by
    ext literal
    rw [← root literal, settled.orderly, ← sound.trail.rootLiterals]
    rfl
  refine (closes_propagateUnits sound strict settled).imp ?_ ?_
  · rintro _ after ⟨consistent, closes⟩
    rw [arena, sameRoot] at consistent
    exact ⟨consistent, arena ▸ sameRoot ▸ closes.root, arena ▸ closes.clauses⟩
  · rintro _ after ⟨⟨literal, rfl⟩, conflict⟩
    rw [arena, sameRoot] at conflict
    exact ⟨rfl, conflict⟩

/-- An open literal that follows becomes a fact. -/
theorem assignUnit_finishes (sound : engine.Sound) (strict : ¬ Realm.Lenient)
    (present : engine.picture.Present literal.var)
    (isOpen : ∀ other ∈ engine.trail.facts, other.var ≠ literal.var)
    (follows : Rup engine.picture.formula [literal]) :
    (assignUnit literal).Finishes engine (fun _ after =>
      engine.Leads .propagation after ∧ after.arena = engine.arena ∧
        ∀ other, other ∈ after.trail.facts ↔ other ∈ engine.trail.facts ∨ other = literal)
      fun _ _ => False := by
  obtain ⟨positive, inside, kept⟩ := present_of_lookup present
  have works : Works .propagation (assignUnit literal) engine _ := works_assignUnit present follows
  refine ⟨((assignUnit_ends sound.toInStep positive inside (kept.resolve_right strict)).and
    (works sound)).imp (fun _ after => ?_) fun _ _ => ?_, safe_assignUnit sound.trail.atRoot inside⟩
  · rintro ⟨⟨_, arena, _, facts⟩, leads, _⟩
    exact ⟨leads, arena, facts⟩
  · rintro ⟨⟨_, complement⟩, _⟩
    exact isOpen _ complement (Literal.var_complement positive)

end Root

end Engine

namespace Trail

variable {trail after : Trail} {literal : Literal}

/-- The true literals are those on the trail. -/
theorem mem_truths_iff (agrees : trail.Agrees) (orderly : trail.Orderly)
    (named : ∀ literal ∈ trail.literals.toList, 0 < literal.var) :
    literal ∈ trail.truths ↔ literal ∈ trail.literals.toList := by
  constructor
  · rintro ⟨present, holds⟩
    exact orderly ▸ agrees.mem_of_true present holds
  · intro onTrail
    refine ⟨named literal onTrail, literalValue?_eq_true.2 ?_⟩
    rw [← orderly] at onTrail
    exact (mem_facts.1 onTrail).2

/-- Values of variables can be taken back. -/
theorem exists_unassign {literals : List Literal}
    (inTable : ∀ literal ∈ literals, literal.var < trail.vars.size) :
    ∃ after, trail.unassign literals = some after := by
  induction literals generalizing trail with
  | nil => exact ⟨trail, rfl⟩
  | cons literal rest ih =>
    obtain ⟨first, others⟩ := List.forall_mem_cons.1 inTable
    unfold unassign
    simp only [modify?, first, if_true, Option.bind_eq_bind, Option.bind_some]
    exact ih fun other member => by
      rw [Array.size_modify]
      exact others other member

/-- Levels can be closed, and the head is not behind the end afterwards. -/
theorem exists_cancelUntil {start : Nat} (levels : trail.levels = #[start])
    (inTable : ∀ literal ∈ trail.literals.toList, literal.var < trail.vars.size) :
    ∃ after, trail.cancelUntil 0 = some after ∧ after.head ≤ start := by
  obtain ⟨middle, undone⟩ :
      ∃ middle, trail.unassign (trail.literals.toList.drop start) = some middle :=
    exists_unassign fun literal member => inTable literal (List.mem_of_mem_drop member)
  unfold cancelUntil
  rw [levels]
  change ∃ after, (do
    let trail ← trail.unassign (trail.literals.toList.drop start)
    return { trail with
      literals := trail.literals.take start
      levels := trail.levels.take 0
      head := min trail.head start }) = some after ∧ _
  rw [undone]
  exact ⟨_, rfl, Nat.min_le_right _ _⟩

end Trail

namespace Probing

variable {engine after : Engine} {literal other : Literal}

/-! ## What probing a variable adds to the root -/

/-- The literals that probing a variable learns, before unit propagation: the complement
of a literal that leads to a conflict, or else what both literals lead to. -/
inductive Learned (formula : Set (List Literal)) (positive : Literal) : Literal → Prop
  | failed (conflict : Conflicts formula {positive}) : Learned formula positive positive.complement
  | complementFailed (consistent : ¬ Conflicts formula {positive})
    (conflict : Conflicts formula {positive.complement}) : Learned formula positive positive
  | both {literal : Literal} (consistent : ¬ Conflicts formula {positive})
    (complementConsistent : ¬ Conflicts formula {positive.complement})
    (fromPositive : Propagates formula {positive} literal)
    (fromNegative : Propagates formula {positive.complement} literal) :
    Learned formula positive literal

/-- The root literals, and what probing a variable learns. -/
def learnedRoot (engine : Engine) (positive : Literal) : Set Literal :=
  engine.trail.root ∪ {literal | Learned engine.arena.formula positive literal}

section Learned

variable {formula : Set (List Literal)} {positive : Literal}

/-- If the literal fails, its complement is learned. -/
theorem learned_iff_of_failed (conflict : Conflicts formula {positive}) :
    Learned formula positive literal ↔ literal = positive.complement := by
  constructor
  · rintro (_ | ⟨consistent, _⟩ | ⟨consistent, _, _, _⟩)
    · rfl
    · exact absurd conflict consistent
    · exact absurd conflict consistent
  · rintro rfl
    exact .failed conflict

/-- If only the complement fails, the literal is learned. -/
theorem learned_iff_of_complementFailed (consistent : ¬ Conflicts formula {positive})
    (conflict : Conflicts formula {positive.complement}) :
    Learned formula positive literal ↔ literal = positive := by
  constructor
  · rintro (failed | ⟨_, _⟩ | ⟨_, complementConsistent, _, _⟩)
    · exact absurd failed consistent
    · rfl
    · exact absurd conflict complementConsistent
  · rintro rfl
    exact .complementFailed consistent conflict

/-- If neither literal fails, what both lead to is learned. -/
theorem learned_iff_of_consistent (consistent : ¬ Conflicts formula {positive})
    (complementConsistent : ¬ Conflicts formula {positive.complement}) :
    Learned formula positive literal ↔
      Propagates formula {positive} literal ∧ Propagates formula {positive.complement} literal := by
  constructor
  · rintro (failed | ⟨_, conflict⟩ | ⟨_, _, fromPositive, fromNegative⟩)
    · exact absurd failed consistent
    · exact absurd conflict complementConsistent
    · exact ⟨fromPositive, fromNegative⟩
  · rintro ⟨fromPositive, fromNegative⟩
    exact .both consistent complementConsistent fromPositive fromNegative

/-- A literal without a conflict does not lead to its complement. -/
theorem not_propagates_complement (consistent : ¬ Conflicts formula {literal})
    (positive : 0 < literal.var) : ¬ Propagates formula {literal} literal.complement := by
  intro derived
  refine consistent (derived.conflicts (Literal.complement_ne positive) ?_)
  rw [Literal.complement_complement positive]
  exact .assumption rfl

/-- A literal without a conflict does not lead to two complementary literals. -/
theorem not_propagates_both (consistent : ¬ Conflicts formula {literal})
    (derived : Propagates formula {literal} other) (different : other ≠ literal) :
    ¬ Propagates formula {literal} other.complement :=
  fun complement => consistent (derived.conflicts different complement)

end Learned

variable [Realm] {assumed : Set Literal} {tool : Tool Unit} {base : Engine} {positive : Literal}

/-! ## Where a probe starts -/

/-- All root literals were applied, and the head is on the trail. -/
structure Able (engine : Engine) : Prop where
  sound : engine.Sound
  applied : Applied engine
  head : engine.trail.head ≤ engine.trail.literals.size

/-- The literals of live clauses are open. -/
theorem Able.isOpen (able : Able engine) {handle : Handle} {clause : Clause}
    (live : engine.arena.live? handle = some clause) (inside : literal ∈ clause.literals) :
    ∀ other ∈ engine.trail.facts, other.var ≠ literal.var := fun _ atRoot same =>
  able.applied.unmentioned atRoot
    ⟨clause.literals, Arena.contents_of_live live, literal, inside, same.symm⟩

/-- The propagation may start from any place of the trail. -/
theorem Able.fits (able : Able engine) {head : Nat} (inTrail : head ≤ engine.trail.literals.size) :
    Trail.Fits engine.arena engine.index { engine.trail with head := head } where
  head := inTrail
  clauses _ _ live _ inside := able.sound.var_lt live inside
  named literal onTrail := by
    change literal ∈ engine.trail.literals.toList at onTrail
    rw [← able.applied.settled.orderly] at onTrail
    obtain ⟨positive, bound, _⟩ := able.sound.wellFormed.known literal onTrail
    exact ⟨positive, Trail.lt_of_le_numVars able.sound.trail.nonempty bound⟩
  listed literal inTable := by
    obtain ⟨entry, found⟩ := able.sound.roomy.exists_entry inTable
    have list : engine.index.list? literal = some entry.handles := by
      rw [Occurrences.list?, found, Option.map_some]
    exact ⟨entry.handles, list, fun handle clause live inside =>
      able.sound.listed.mem_of_live live inside list⟩

/-- No clause waits for a literal at the root. -/
theorem Able.attends (able : Able engine) {head : Nat} :
    Trail.AttendsAll engine.arena { engine.trail with head := head } := by
  intro handle clause live
  have admits := able.sound.wellFormed.admits _ (Arena.contents_of_live live)
  have free : ∀ literal ∈ clause.literals, engine.trail.literalValue? literal = some none := by
    intro literal inside
    obtain ⟨positive, inTable⟩ := able.sound.var_lt live inside
    exact able.sound.trail.agrees.literalValue?_of_open positive inTable (able.isOpen live inside)
  obtain ⟨first, isFirst, second, isSecond, different⟩ :
      ∃ first ∈ clause.literals, ∃ second ∈ clause.literals, first ≠ second :=
    Literal.exists_ne admits.two admits.nodup
  exact .inl (.inr ⟨first, isFirst, second, isSecond, different, free first isFirst,
    free second isSecond⟩)

/-- Bringing the root up to date moves the head to the end of the trail. -/
theorem settleRoot_finishes (able : Able engine) :
    settleRoot.Finishes engine (fun _ after => after =
      { engine with trail := { engine.trail with head := engine.trail.literals.size } })
      fun _ _ => False := by
  have nothing : Engine.propagateUnits.Finishes engine (fun _ after => after = engine)
      fun _ _ => False :=
    ⟨able.applied.propagateUnits_looks.imp (fun _ _ ⟨same, _⟩ => same) fun _ _ no => no,
      Engine.safe_propagateUnits able.sound (.inr able.applied.settled.orderly)⟩
  have propagates : (Trail.propagate engine.arena engine.index).Finishes engine.trail
      (fun conflict after => conflict = none ∧
        after = { engine.trail with head := engine.trail.literals.size }) fun _ _ => False := by
    have ends : (Trail.propagate engine.arena engine.index).Ends engine.trail _ _ :=
      .step rfl (Trail.propagateLoop_of_lacks _ engine.trail.head
        fun literal atRoot handle clause live => able.applied.lacks able.sound atRoot live)
    refine ((Trail.propagate_finishes (able.fits able.head) able.attends).and_ends ends).imp ?_
      fun _ _ ⟨no, _⟩ => no
    rintro _ _ ⟨propagated, rfl, head, rfl⟩
    have atEnd : head = engine.trail.literals.size := (propagated.complete rfl).1
    exact ⟨rfl, by rw [atEnd]⟩
  have atRoot : (Trail.propagateAtRoot engine.arena engine.index).Finishes engine.trail
      (fun _ after => after = { engine.trail with head := engine.trail.literals.size })
      fun _ _ => False := by
    refine propagates.bind ?_
    rintro _ _ ⟨rfl, rfl⟩
    exact .pure rfl
  refine nothing.bind fun _ same isSame => ?_
  rw [isSame]
  refine .step rfl ((Engine.onTrail_finishes atRoot).imp (fun _ _ holds => holds)
    (fun _ _ ⟨_, _, no⟩ => no) |>.bind ?_)
  rintro _ _ ⟨_, rfl, rfl⟩
  have none_ : (engine.trail.literals.toList.drop engine.trail.literals.size).isEmpty = true := by
    simp
  refine .step rfl ?_
  dsimp only
  rw [if_pos none_]
  exact .pure rfl

/-! ## What propagation derives from a literal -/

/-- Root literals have no part in what the clauses derive from a literal. -/
theorem Able.propagates_cases (able : Able engine)
    (derived : Propagates engine.arena.formula ({root | root ∈ engine.trail.facts} ∪ assumed) other) :
    other ∈ engine.trail.facts ∨ Propagates engine.arena.formula assumed other := by
  induction derived with
  | assumption member => exact member.imp_right .assumption
  | @unit literals literal stored member _ falsified =>
    obtain ⟨handle, clause, live, rfl⟩ := able.sound.toInStep.exists_live stored
    refine .inr (.unit stored member fun other inside different => ?_)
    refine (falsified other inside different).resolve_left fun atRoot => ?_
    exact able.isOpen live inside _ atRoot (Literal.var_complement (able.sound.var_lt live inside).1)

/-- Root literals that were applied conflict with nothing more. -/
theorem Able.conflicts_iff (able : Able engine) :
    Conflicts engine.arena.formula ({root | root ∈ engine.trail.facts} ∪ assumed) ↔
      Conflicts engine.arena.formula assumed := by
  refine ⟨?_, fun conflict => conflict.mono Set.Subset.rfl Set.subset_union_right⟩
  rintro ⟨literals, stored, falsified⟩
  obtain ⟨handle, clause, live, rfl⟩ := able.sound.toInStep.exists_live stored
  refine ⟨_, stored, fun other inside => ?_⟩
  refine (able.propagates_cases (falsified other inside)).resolve_left fun atRoot => ?_
  exact able.isOpen live inside _ atRoot (Literal.var_complement (able.sound.var_lt live inside).1)

/-- What a literal leads to, other than itself, is a literal of a clause. -/
theorem Able.exists_clause (able : Able engine)
    (derived : Propagates engine.arena.formula {literal} other) (different : other ≠ literal) :
    ∃ handle clause, engine.arena.live? handle = some clause ∧ other ∈ clause.literals := by
  cases derived with
  | assumption member => exact absurd member different
  | unit stored member _ =>
    obtain ⟨handle, clause, live, rfl⟩ := able.sound.toInStep.exists_live stored
    exact ⟨handle, clause, live, member⟩

/-! ## A probe -/

/-- A level is opened for an open literal. -/
theorem openLevel_finishes (able : Able engine) (present : engine.picture.Present literal.var)
    (isOpen : ∀ other ∈ engine.trail.facts, other.var ≠ literal.var) :
    (Engine.updateTrail fun trail => trail.openLevel literal).Finishes
      { engine with trail := { engine.trail with head := engine.trail.literals.size } }
      (fun _ after => ∃ trail, after = { engine with trail := trail } ∧
        Opens engine literal trail ∧ Trail.Fits engine.arena engine.index trail ∧
        Trail.AttendsAll engine.arena trail ∧ Trail.Extends engine.trail trail)
      fun _ _ => False := by
  obtain ⟨positive, inTable, _⟩ := Engine.present_of_lookup present
  have unassigned := able.sound.trail.agrees.literalValue?_of_open positive inTable isOpen
  let settled : Trail := { engine.trail with head := engine.trail.literals.size }
  obtain ⟨trail, opened⟩ : ∃ trail, settled.openLevel literal = some trail := by
    simp [settled, Trail.openLevel, Trail.push, Trail.modify?, inTable]
  have fits := able.fits (le_refl engine.trail.literals.size)
  have attends : Trail.AttendsAll engine.arena
      { engine.trail with head := engine.trail.literals.size } := able.attends
  -- Opening a level changes neither values nor the queue.
  let leveled : Trail := { settled with levels := settled.levels.push settled.literals.size }
  have free : leveled.literalValue? literal = some none := unassigned
  have fitsLeveled : Trail.Fits engine.arena engine.index leveled :=
    ⟨fits.head, fits.clauses, fits.named, fits.listed⟩
  have extends_ : Trail.Extends engine.trail leveled := ⟨[], by simp [leveled, settled], fun _ _ => rfl⟩
  exact .of_returns ⟨(), _, Engine.updateTrail_of_eq_some opened, trail, rfl,
    opens_openLevel able.sound able.applied.settled.orderly unassigned opened,
    fitsLeveled.push free opened positive, Trail.Attends.push free opened fitsLeveled attends,
    extends_.push opened⟩

/-- The true literals of an opened level. -/
theorem Opens.truths {trail : Trail} (opens : Opens engine literal trail) (able : Able engine)
    (positive : 0 < literal.var) :
    trail.truths = {root | root ∈ engine.trail.facts} ∪ {literal} := by
  have orderly := able.applied.settled.orderly
  have named : ∀ other ∈ trail.literals.toList, 0 < other.var := by
    rw [opens.appended, ← orderly]
    refine List.forall_mem_append.2 ⟨fun root atRoot => ?_, by simpa using positive⟩
    exact (able.sound.wellFormed.known root atRoot).1
  ext other
  rw [Trail.mem_truths_iff opens.derives.agrees opens.derives.orderly named, opens.appended,
    ← orderly, List.mem_append, List.mem_singleton]
  rfl

/-- What is on the trail at the end of a propagation without a conflict. -/
theorem mem_implied_iff {start trail : Trail} (able : Able engine)
    (present : engine.picture.Present literal.var) (opens : Opens engine literal start)
    (derives : Trail.Derives engine.picture literal start trail)
    (propagated : Trail.Propagated engine.arena engine.arena.formula start none trail) :
    other ∈ trail.literals.toList.drop (engine.trail.literals.size + 1) ↔
      Propagates engine.arena.formula {literal} other ∧ other ≠ literal := by
  have orderly := able.applied.settled.orderly
  obtain ⟨new, appended, presentNew⟩ := derives.appended
  rw [opens.appended] at appended
  have implied : trail.literals.toList.drop (engine.trail.literals.size + 1) = new := by
    rw [appended, List.drop_left' (by simp)]
  have rootNamed : ∀ root ∈ engine.trail.literals.toList, 0 < root.var := by
    rw [← orderly]
    exact fun root atRoot => (able.sound.wellFormed.known root atRoot).1
  have named : ∀ other ∈ trail.literals.toList, 0 < other.var := by
    rw [appended]
    refine List.forall_mem_append.2 ⟨List.forall_mem_append.2 ⟨rootNamed, ?_⟩,
      fun other inNew => (presentNew other inNew).1⟩
    simpa using present.1
  have onTrail : ∀ other : Literal, other ∈ trail.truths ↔ other ∈ trail.literals.toList :=
    fun _ => Trail.mem_truths_iff derives.agrees derives.orderly named
  have distinct := derives.orderly.nodup
  rw [appended, List.map_append, List.nodup_append] at distinct
  rw [implied]
  constructor
  · intro inNew
    have apart : ∀ old ∈ engine.trail.literals.toList ++ [literal], old.var ≠ other.var :=
      fun old isOld => distinct.2.2 _ (List.mem_map_of_mem isOld) _ (List.mem_map_of_mem inNew)
    have derived := propagated.derived other
      ((onTrail other).2 (appended ▸ List.mem_append_right _ inNew))
    rw [opens.truths able present.1] at derived
    refine ⟨(able.propagates_cases derived).resolve_left fun atRoot => ?_, fun same => ?_⟩
    · exact apart other (List.mem_append_left _ (orderly ▸ atRoot)) rfl
    · exact apart literal (by simp) (congrArg Literal.var same.symm)
  · rintro ⟨derived, different⟩
    have holds : other ∈ trail.truths := by
      refine (propagated.complete rfl).2.2.1 other (derived.mono Set.Subset.rfl ?_)
      rw [opens.truths able present.1]
      exact Set.subset_union_right
    have member := (onTrail other).1 holds
    rw [appended, List.mem_append, List.mem_append, List.mem_singleton] at member
    rcases member with (atRoot | same) | inNew
    · obtain ⟨handle, clause, live, inside⟩ := able.exists_clause derived different
      exact absurd rfl (able.isOpen live inside other (orderly ▸ atRoot))
    · exact absurd same different
    · exact inNew

/-- What propagation finds out about an assumed literal. -/
theorem propagate_finishes {start : Trail} (able : Able engine)
    (present : engine.picture.Present literal.var) (opens : Opens engine literal start)
    (fits : Trail.Fits engine.arena engine.index start)
    (attends : Trail.AttendsAll engine.arena start)
    (extends_ : Trail.Extends engine.trail start) :
    (Engine.onTrail Trail.propagate).Finishes { engine with trail := start } (fun conflict after =>
      ∃ trail, after = { engine with trail := trail } ∧
        Trail.Derives engine.picture literal start trail ∧ Trail.Extends engine.trail trail ∧
        (conflict.isSome = true ↔ Conflicts engine.arena.formula {literal}) ∧
        (conflict = none → ∀ other,
          other ∈ trail.literals.toList.drop (engine.trail.literals.size + 1) ↔
            Propagates engine.arena.formula {literal} other ∧ other ≠ literal))
      fun _ _ => False := by
  have derives : (Trail.propagate engine.arena engine.index).Ends start _ _ :=
    Trail.propagate_ends able.sound.wellFormed (fun _ _ live => Arena.contents_of_live live)
      opens.derives
  have finishes := (Trail.propagate_finishes fits attends).and_ends
    (derives.and (Trail.propagate_extends extends_))
  have whole : (Engine.onTrail Trail.propagate).Finishes { engine with trail := start } _ _ :=
    Engine.onTrail_finishes finishes
  refine whole.imp ?_ fun _ _ ⟨_, _, no, _⟩ => no
  rintro conflict _ ⟨trail, rfl, propagated, ⟨derived, _⟩, extended⟩
  rw [Arena.named_eq_formula able.sound.space.le] at propagated
  refine ⟨trail, rfl, derived, extended, ?_, ?_⟩
  · rw [← able.conflicts_iff, ← opens.truths able present.1]
    cases conflict with
    | none => simpa using (propagated.complete rfl).2.2.2
    | some handle => simpa using (propagated.falsified handle rfl).2
  · rintro rfl other
    exact mem_implied_iff able present opens derived propagated

/-- How a probe leaves the engine when its level was closed, and what it found. -/
structure Finds (engine : Engine) (literal : Literal) (conflict : Option Handle)
    (implied : List Literal) (closed : Engine) : Prop where
  able : Able closed
  arena : closed.arena = engine.arena
  picture : closed.picture = engine.picture
  given : engine.GivenAtRoot closed
  failed : conflict.isSome = true ↔ Conflicts engine.arena.formula {literal}
  implied : conflict = none →
    ∀ other, other ∈ implied ↔ Propagates engine.arena.formula {literal} other ∧ other ≠ literal

theorem Finds.facts {conflict : Option Handle} {implied : List Literal} {closed : Engine}
    (finds : Finds engine literal conflict implied closed) :
    closed.trail.facts = engine.trail.facts := congrArg Picture.root finds.picture

/-- Closing the level of a probe brings the engine back. -/
theorem cancelToRoot_finishes {start trail : Trail} (able : Able engine)
    (opens : Opens engine literal start)
    (derives : Trail.Derives engine.picture literal start trail)
    (extends_ : Trail.Extends engine.trail trail) :
    Engine.cancelToRoot.Finishes { engine with trail := trail } (fun _ closed =>
      Able closed ∧ closed.arena = engine.arena ∧ closed.picture = engine.picture ∧
        engine.GivenAtRoot closed)
      fun _ _ => False := by
  have levels : trail.levels = #[engine.trail.literals.toList.length] :=
    derives.levels.trans opens.levels
  have flags := opens.flags.trans derives.flags
  obtain ⟨new, appended, presentNew⟩ := derives.appended
  rw [opens.appended, List.append_assoc] at appended
  have inTable : ∀ other ∈ trail.literals.toList, other.var < trail.vars.size := by
    intro other onTrail
    rw [← derives.orderly] at onTrail
    obtain ⟨state, found, _⟩ := Option.map_eq_some_iff.1 (Trail.mem_facts.1 onTrail).2
    exact (Array.getElem?_eq_some_iff.1 found).1
  obtain ⟨closed, cancelled, head⟩ := Trail.exists_cancelUntil levels inTable
  have done : Engine.cancelToRoot { engine with trail := trail } =
      .done () { engine with trail := closed } := Engine.updateTrail_of_eq_some cancelled
  have restored : Engine.cancelToRoot.Ends { engine with trail := trail } _ fun _ _ => False :=
    closed_ends able.sound able.applied.settled.orderly derives.agrees derives.orderly flags levels
      appended
  obtain ⟨leads, picture, literals, _⟩ := restored.done_of_eq done
  refine .of_returns ⟨(), _, done, ⟨leads.sound able.sound,
    able.applied.of_leads leads literals rfl, ?_⟩, rfl, picture,
    extends_.cancelUntil levels cancelled⟩
  rw [literals, ← Array.length_toList]
  exact head

/-- A probe comes to an end as what is concluded from it does. -/
theorem probe_finishes (able : Able engine) (present : engine.picture.Present literal.var)
    (isOpen : ∀ other ∈ engine.trail.facts, other.var ≠ literal.var)
    {done : Option (List Literal) → Tool Unit × Engine → Prop}
    {failed : Error → Tool Unit × Engine → Prop}
    (concluded : ∀ conflict implied tool closed, Finds engine literal conflict implied closed →
      (if conflict.isSome then do
          Engine.count fun tally => { tally with failedLiterals := tally.failedLiterals + 1 }
          Engine.assignUnit literal.complement
          Engine.propagateUnits
          return none
        else return some implied : Work Unit (Option (List Literal))).Finishes (tool, closed)
        done failed) : (probe literal).Finishes (tool, engine) done failed := by
  unfold probe
  refine .bind ((settleRoot_finishes able).lift.imp (fun _ _ settled => settled) ?_) ?_
  · exact fun _ _ no => no.elim
  rintro _ ⟨opening, _⟩ ⟨_, rfl⟩
  refine .step rfl (.bind ((openLevel_finishes able present isOpen).lift.imp
    (fun _ _ opened => opened) fun _ _ no => no.elim) ?_)
  rintro _ ⟨propagating, _⟩ ⟨_, start, rfl, opens, fits, attends, opened⟩
  refine .bind ((propagate_finishes able present opens fits attends opened).lift.imp
    (fun _ _ propagated => propagated) fun _ _ no => no.elim) ?_
  rintro conflict ⟨paying, _⟩ ⟨_, trail, rfl, derives, extended, isConflict, implied⟩
  refine .step rfl ?_
  obtain ⟨goOn, budget, spent, _⟩ := Work.spend_done
    ((trail.literals.toList.drop (engine.trail.literals.size + 1)).length + 1) paying
    { engine with trail := trail }
  have closing : (liftM Engine.cancelToRoot : Work Unit Unit).Finishes
      ({ paying with budget := budget }, { engine with trail := trail }) _ _ :=
    .lift (cancelToRoot_finishes able opens derives extended)
  refine .step spent (.bind (closing.imp (fun _ _ closed => closed) fun _ _ no => no.elim) ?_)
  rintro _ ⟨_, closed⟩ ⟨_, ableClosed, arena, picture, given⟩
  exact concluded _ _ _ _ ⟨ableClosed, arena, picture, given, isConflict, implied⟩

/-! ## Drawing the conclusions -/

/-- The root is the closure of some literals, and no value of a higher level is left. -/
structure Concludes (before : Engine) (assumed : Set Literal) (after : Engine) : Prop
    extends before.ClosesFrom assumed after where
  consistent : ¬ Conflicts before.arena.formula assumed
  given : before.GivenAtRoot after

/-- Unit propagation on some literals finds a conflict, and no value of a higher level is
left. -/
structure Refuses (before : Engine) (assumed : Set Literal) (cause : Error) (after : Engine) :
    Prop where
  isUnsat : cause.isUnsat = true
  conflict : Conflicts before.arena.formula assumed
  given : before.GivenAtRoot after

omit [Realm] in
/-- Work that closes the root under some literals, from a state where the old levels are
given, says what is concluded. -/
theorem concludes_of_closes {α : Type} {body : Work Unit α} {state : Tool Unit × Engine}
    (answers : α → Prop) (given : base.GivenAtRoot state.2)
    (tracks : Tracks Engine.GivenAtRoot body)
    (closes : body.Finishes state (fun value after => answers value ∧
        ¬ Conflicts base.arena.formula assumed ∧ base.ClosesFrom assumed after.2)
      fun cause _ => cause.isUnsat = true ∧ Conflicts base.arena.formula assumed) :
    body.Finishes state (fun value after => answers value ∧ Concludes base assumed after.2)
      fun cause after => Refuses base assumed cause after.2 :=
  (closes.and_ends (tracks state)).imp
    (fun _ _ ⟨⟨answer, consistent, closes⟩, further⟩ =>
      ⟨answer, closes, consistent, given.trans further⟩)
    fun _ _ ⟨⟨isUnsat, conflict⟩, further⟩ => ⟨isUnsat, conflict, given.trans further⟩

/-- The complement of a failed literal is assigned, and the root is closed. -/
theorem refute_finishes (able : Able engine) (strict : ¬ Realm.Lenient)
    (arena : engine.arena = base.arena) (given : base.GivenAtRoot engine)
    (present : engine.picture.Present literal.var)
    (isOpen : ∀ other ∈ engine.trail.facts, other.var ≠ literal.var)
    (conflict : Conflicts engine.arena.formula {literal}) (isAssumed : ∀ other, other ∈ assumed ↔
      other ∈ engine.trail.facts ∨ other = literal.complement) :
    (do
      Engine.count fun tally => { tally with failedLiterals := tally.failedLiterals + 1 }
      Engine.assignUnit literal.complement
      Engine.propagateUnits
      return none : Work Unit (Option (List Literal))).Finishes (tool, engine)
      (fun result after => result = none ∧ Concludes base assumed after.2)
      fun cause after => Refuses base assumed cause after.2 := by
  have sameVar := Literal.var_complement present.1
  refine concludes_of_closes (fun result => result = none) given made_refute.tracks ?_
  let counted : Engine := { engine with
    tally := { engine.tally with failedLiterals := engine.tally.failedLiterals + 1 } }
  have counts : engine.Leads .propagation counted :=
    .of_same able.sound rfl rfl rfl rfl rfl rfl rfl rfl rfl
  have assigns : (Engine.assignUnit literal.complement).Finishes counted _ _ :=
    Engine.assignUnit_finishes (counts.sound able.sound) strict (sameVar.symm ▸ present)
      (sameVar.symm ▸ isOpen)
      (rup_of_conflict present.1 (conflict.mono Engine.formula_subset_picture Set.Subset.rfl))
  have assignsToo : (liftM (Engine.assignUnit literal.complement) : Work Unit Unit).Finishes
      (tool, counted) _ _ := .lift assigns
  refine .step rfl (.bind (assignsToo.imp (fun _ _ assigned => assigned) fun _ _ no => no.elim) ?_)
  rintro _ ⟨_, assigned⟩ ⟨_, leads, sameArena, facts⟩
  have whole := counts.trans leads
  have closes := Engine.closesFrom_propagateUnits (whole.sound able.sound) strict
    (whole.settled able.applied.settled) (sameArena.trans arena)
    fun other => (facts other).trans (isAssumed other).symm
  exact (Run.Finishes.lift closes).bind fun _ after ⟨_, holds⟩ => .pure ⟨rfl, holds⟩

omit [Realm] in
/-- Literals of which no two are complementary become facts. -/
theorem assignNecessary_finishes {literals : List Literal} (inStep : engine.InStep)
    (kept : ∀ literal ∈ literals, 0 < literal.var ∧ literal.var < engine.trail.vars.size ∧
      ¬ engine.trail.Removed literal.var)
    (proper : ∀ literal ∈ literals, literal.complement ∉ literals)
    (consistent : ∀ literal ∈ literals, literal.complement ∉ engine.trail.facts) :
    (assignNecessary positive literals).Finishes engine (fun _ after =>
      after.arena = engine.arena ∧
        ∀ other, other ∈ after.trail.facts ↔ other ∈ engine.trail.facts ∨ other ∈ literals)
      fun _ _ => False := by
  induction literals generalizing engine with
  | nil => exact .pure ⟨rfl, by simp⟩
  | cons literal rest ih =>
    obtain ⟨⟨present, inTable, isKept⟩, keptRest⟩ := List.forall_mem_cons.1 kept
    have properRest : ∀ other ∈ rest, other.complement ∉ rest := fun other inRest again =>
      proper other (List.mem_cons_of_mem _ inRest) (List.mem_cons_of_mem _ again)
    obtain ⟨isOpen, openRest⟩ := List.forall_mem_cons.1 consistent
    have known := Trail.literalValue?_of_lt inTable
    unfold assignNecessary
    refine .step (Engine.literalValue_of_lt inTable) ?_
    generalize literal.valueUnder engine.trail.vars[literal.var].value = value at known
    cases value with
    | none =>
      let helping : Engine := { engine with
        proof := (engine.proof.map fun steps : Array ProofStep =>
          steps.push (.added [positive.complement, literal])).map fun steps : Array ProofStep =>
            steps.push (.added [positive, literal]) }
      have inStepHelping : helping.InStep := inStep.of_same rfl rfl rfl rfl
      have assigns : (Engine.assignUnit literal).Finishes helping _ _ :=
        ⟨Engine.assignUnit_ends inStepHelping present inTable isKept,
          Engine.safe_assignUnit inStep.trail.atRoot inTable⟩
      refine .step rfl (.step rfl (.bind (assigns.imp (fun _ _ assigned => assigned)
        fun _ _ clashes => isOpen clashes.2) ?_))
      rintro _ middle ⟨inStepMiddle, arena, flags, facts⟩
      refine .step rfl (.step rfl (.step rfl ?_))
      refine (ih ?_ ?_ properRest ?_).imp ?_ fun _ _ no => no
      · exact inStepMiddle.of_same rfl rfl rfl rfl
      · intro other inRest
        obtain ⟨otherPresent, otherInTable, otherKept⟩ := keptRest other inRest
        refine ⟨otherPresent, flags.size.symm ▸ otherInTable, ?_⟩
        rintro ⟨marks, found, removed⟩
        exact otherKept ⟨marks, (flags.flags other.var).symm.trans found, removed⟩
      · intro other inRest complement
        rcases (facts _).1 complement with old | same
        · exact openRest other inRest old
        · exact proper other (List.mem_cons_of_mem _ inRest) (same ▸ List.mem_cons_self)
      · rintro _ after ⟨arenaAfter, factsAfter⟩
        refine ⟨arenaAfter.trans arena, fun other => ?_⟩
        rw [factsAfter, List.mem_cons, ← or_assoc]
        exact or_congr_left (facts other)
    | some sign =>
      have holds : literal ∈ engine.trail.facts := by
        cases sign with
        | false => exact absurd (inStep.trail.agrees.mem_of_false present known) isOpen
        | true => exact inStep.trail.agrees.mem_of_true present known
      refine (ih inStep keptRest properRest openRest).imp ?_ fun _ _ no => no
      rintro _ after ⟨arena, facts⟩
      refine ⟨arena, fun other => ?_⟩
      rw [facts, List.mem_cons]
      constructor
      · rintro (fact | inRest)
        · exact .inl fact
        · exact .inr (.inr inRest)
      · rintro (fact | rfl | inRest)
        · exact .inl fact
        · exact .inl holds
        · exact .inr inRest

/-- What both literals of a variable lead to is assigned, and the root is closed. -/
theorem necessary_finishes {both : List Literal} (able : Able engine) (strict : ¬ Realm.Lenient)
    (arena : engine.arena = base.arena) (given : base.GivenAtRoot engine)
    (present : 0 < positive.var) (consistent : ¬ Conflicts engine.arena.formula {positive})
    (fromBoth : ∀ literal ∈ both,
      (Propagates engine.arena.formula {positive} literal ∧ literal ≠ positive) ∧
        Propagates engine.arena.formula {positive.complement} literal ∧
          literal ≠ positive.complement)
    (isAssumed : ∀ other, other ∈ assumed ↔ other ∈ engine.trail.facts ∨ other ∈ both) :
    (do
      assignNecessary positive both
      Engine.propagateUnits : Work Unit Unit).Finishes (tool, engine)
      (fun _ after => Concludes base assumed after.2)
      fun cause after => Refuses base assumed cause after.2 := by
  refine (concludes_of_closes (fun _ => True) given made_necessary.tracks ?_).imp
    (fun _ _ ⟨_, holds⟩ => holds) fun _ _ holds => holds
  have presentBoth : ∀ literal ∈ both, engine.picture.Present literal.var := by
    intro literal member
    obtain ⟨⟨derived, different⟩, _⟩ := fromBoth literal member
    obtain ⟨handle, clause, live, inside⟩ := able.exists_clause derived different
    exact (able.sound.wellFormed.admits _ (Arena.contents_of_live live)).present literal inside
  have proper : ∀ literal ∈ both, literal.complement ∉ both := fun literal member complement =>
    not_propagates_both consistent (fromBoth literal member).1.1 (fromBoth literal member).1.2
      (fromBoth _ complement).1.1
  have isOpen : ∀ literal ∈ both, literal.complement ∉ engine.trail.facts := by
    intro literal member atRoot
    obtain ⟨⟨derived, different⟩, _⟩ := fromBoth literal member
    obtain ⟨handle, clause, live, inside⟩ := able.exists_clause derived different
    exact able.isOpen live inside _ atRoot (Literal.var_complement (presentBoth literal member).1)
  have assigns : (assignNecessary positive both).Finishes engine _ _ :=
    assignNecessary_finishes able.sound.toInStep (fun literal member =>
      have ⟨isPresent, inTable, kept⟩ := Engine.present_of_lookup (presentBoth literal member)
      ⟨isPresent, inTable, kept.resolve_right strict⟩) proper isOpen
  have works : Works .propagation (assignNecessary positive both) engine fun _ _ => True := by
    refine works_assignNecessary present fun literal member => ?_
    obtain ⟨⟨derived, different⟩, derivedToo, differentToo⟩ := fromBoth literal member
    have isPresent := presentBoth literal member
    have sameVar := Literal.var_complement present
    have apart : literal.var ≠ positive.var := fun same =>
      (Literal.eq_or_eq_complement present same).elim different differentToo
    exact ⟨⟨isPresent, apart, derived.mono Engine.formula_subset_picture Set.Subset.rfl⟩,
      isPresent, sameVar.symm ▸ apart,
      derivedToo.mono Engine.formula_subset_picture Set.Subset.rfl⟩
  have assignsToo : (liftM (assignNecessary positive both) : Work Unit Unit).Finishes
      (tool, engine) _ _ := .lift (assigns.and_ends (works able.sound))
  refine .bind (assignsToo.imp (fun _ _ assigned => assigned) fun _ _ ⟨no, _⟩ => no.elim) ?_
  rintro _ ⟨_, assigned⟩ ⟨_, ⟨sameArena, facts⟩, leads, _⟩
  have closes := Engine.closesFrom_propagateUnits (leads.sound able.sound) strict
    (leads.settled able.applied.settled) (sameArena.trans arena)
    fun other => (facts other).trans (isAssumed other).symm
  exact (Run.Finishes.lift closes).imp (fun _ _ ⟨_, holds⟩ => ⟨trivial, holds⟩) fun _ _ holds => holds

/-- A probe that does not fail says what its literal leads to. -/
structure Survives (engine : Engine) (literal : Literal) (implied : List Literal)
    (closed : Engine) : Prop where
  able : Able closed
  arena : closed.arena = engine.arena
  picture : closed.picture = engine.picture
  given : engine.GivenAtRoot closed
  consistent : ¬ Conflicts engine.arena.formula {literal}
  implied : ∀ other,
    other ∈ implied ↔ Propagates engine.arena.formula {literal} other ∧ other ≠ literal

/-- A probe finds out what its literal leads to, or closes the root under its complement. -/
theorem probe_decides (able : Able engine) (strict : ¬ Realm.Lenient)
    (arena : engine.arena = base.arena) (given : base.GivenAtRoot engine)
    (present : engine.picture.Present literal.var)
    (isOpen : ∀ other ∈ engine.trail.facts, other.var ≠ literal.var)
    (isAssumed : Conflicts engine.arena.formula {literal} →
      ∀ other, other ∈ assumed ↔ other ∈ engine.trail.facts ∨ other = literal.complement) :
    (probe literal).Finishes (tool, engine)
      (fun result after => match result with
        | none => Concludes base assumed after.2
        | some implied => Survives engine literal implied after.2)
      fun cause after => Refuses base assumed cause after.2 := by
  refine probe_finishes able present isOpen fun conflict implied probing closed finds => ?_
  split
  next isFailed =>
    have conflicts := finds.failed.1 isFailed
    have granted : ∀ other,
        other ∈ assumed ↔ other ∈ closed.trail.facts ∨ other = literal.complement := by
      rw [finds.facts]
      exact isAssumed conflicts
    refine (refute_finishes finds.able strict (finds.arena.trans arena) (given.trans finds.given)
      (finds.picture ▸ present) (fun other atRoot => isOpen other (finds.facts ▸ atRoot))
      (finds.arena ▸ conflicts) granted).imp ?_ fun _ _ holds => holds
    rintro _ after ⟨rfl, holds⟩
    exact holds
  next isConsistent =>
    have none_ : conflict = none := by simpa using isConsistent
    exact .pure ⟨finds.able, finds.arena, finds.picture, finds.given,
      fun conflicts => isConsistent (finds.failed.2 conflicts), finds.implied none_⟩

/-- Probing a variable closes the root under what it learned. -/
theorem probeVar_finishes {name : Nat} (able : Able engine) (strict : ¬ Realm.Lenient)
    (present : engine.picture.Present name)
    (isOpen : ∀ other ∈ engine.trail.facts, other.var ≠ name) :
    (probeVar name).Finishes (tool, engine)
      (fun _ after => Concludes engine (learnedRoot engine (.ofVar name true)) after.2)
      fun cause after => Refuses engine (learnedRoot engine (.ofVar name true)) cause after.2 := by
  obtain ⟨sameVar, complementVar⟩ := vars_of_present able.sound present
  let positive : Literal := .ofVar name true
  have isPresent : 0 < positive.var := sameVar.symm ▸ present.1
  have restored := Literal.complement_complement isPresent
  have root : ∀ {closed : Engine}, closed.picture = engine.picture → ∀ other,
      other ∈ engine.trail.root ↔ other ∈ closed.trail.facts := by
    intro closed same other
    have facts : closed.trail.facts = engine.trail.facts := congrArg Picture.root same
    rw [facts, able.applied.settled.orderly, ← able.sound.trail.rootLiterals]
    rfl
  have probes : (probe positive).Finishes (tool, engine) _ _ :=
    probe_decides able strict rfl (.refl engine.trail) (sameVar.symm ▸ present)
      (sameVar.symm ▸ isOpen) fun conflicts other =>
        or_congr (root rfl other) (learned_iff_of_failed conflicts)
  unfold probeVar
  refine .bind probes ?_
  rintro (_ | fromPositive) ⟨probing, first⟩ reached
  · exact .pure reached
  have survives : Survives engine positive fromPositive first := reached
  have openFirst : ∀ other ∈ first.trail.facts, other.var ≠ name := fun other atRoot =>
    isOpen other ((root survives.picture other).2 atRoot |> (root rfl other).1)
  have presentFirst : first.picture.Present positive.complement.var := by
    rw [survives.picture, complementVar]
    exact present
  have granted : Conflicts first.arena.formula {positive.complement} → ∀ other,
      other ∈ learnedRoot engine positive ↔
        other ∈ first.trail.facts ∨ other = positive.complement.complement := by
    intro conflicts other
    rw [restored]
    exact or_congr (root survives.picture other)
      (learned_iff_of_complementFailed survives.consistent (survives.arena ▸ conflicts))
  refine .bind (probe_decides survives.able strict survives.arena survives.given presentFirst
    (complementVar.symm ▸ openFirst) granted) ?_
  rintro (_ | fromNegative) ⟨probed, second⟩ reached
  · exact .pure reached
  have survivesToo : Survives first positive.complement fromNegative second := reached
  obtain ⟨able_, arena, picture, given, complementConsistent, impliedNegative⟩ := survivesToo
  rw [survives.arena] at complementConsistent impliedNegative
  have members : ∀ other,
      other ∈ fromNegative.filter (fun literal => fromPositive.contains literal) ↔
        (Propagates engine.arena.formula {positive} other ∧ other ≠ positive) ∧
          Propagates engine.arena.formula {positive.complement} other ∧
            other ≠ positive.complement := by
    intro other
    rw [List.mem_filter, List.contains_iff_mem, survives.implied, impliedNegative]
    exact and_comm
  have sameArena := arena.trans survives.arena
  refine necessary_finishes able_ strict sameArena (survives.given.trans given) isPresent
    (sameArena.symm ▸ survives.consistent)
    (fun other member => sameArena.symm ▸ (members other).1 member) fun other =>
      or_congr (root (picture.trans survives.picture) other) ?_
  -- Neither literal of the variable is among what both lead to.
  rw [members]
  refine (learned_iff_of_consistent survives.consistent complementConsistent).trans ⟨?_, ?_⟩
  · rintro ⟨fromFirst, fromSecond⟩
    refine ⟨⟨fromFirst, ?_⟩, fromSecond, ?_⟩
    · rintro rfl
      exact not_propagates_complement complementConsistent (complementVar.symm ▸ present.1)
        (restored.symm ▸ fromSecond)
    · rintro rfl
      exact not_propagates_complement survives.consistent isPresent fromFirst
  · rintro ⟨⟨fromFirst, _⟩, fromSecond, _⟩
    exact ⟨fromFirst, fromSecond⟩

omit [Realm] in
/-- Probing an open variable of a live clause comes to an end. The root literals become the
closure, under unit propagation, of the old ones and of what the two literals of the
variable teach; only if that is conflicting does it fail, with a verdict of
unsatisfiability. In any case no level is open at the end, the old trail is the beginning
of the new one, and no value of a higher level is left. -/
theorem probeVar_learns_exactly {name : Nat} {tool : Tool Unit} (ready : engine.Ready)
    (current : engine.Current) (head : engine.trail.head ≤ engine.trail.literals.size)
    (kept : ∀ clause ∈ engine.arena.liveClauses, ∀ literal ∈ clause.literals,
      ¬ engine.trail.Removed literal.var)
    (unassigned : engine.trail.value? name = some none)
    (mentioned : ∃ clause ∈ engine.arena.liveClauses, ∃ literal ∈ clause.literals,
      literal.var = name) :
    (probeVar name).Finishes (tool, engine)
      (fun _ after => Concludes engine (learnedRoot engine (.ofVar name true)) after.2 ∧
        engine.BackAtRoot after.2)
      fun cause after => Refuses engine (learnedRoot engine (.ofVar name true)) cause after.2 ∧
        engine.BackAtRoot after.2 := by
  let _ : Realm := .rootLenient
  have sound : engine.Sound := ready.rootSound kept
  have able : Able engine := ⟨sound, ⟨current, ready.settled⟩, head⟩
  have isOpen := Trail.open_of_value? unassigned
  obtain ⟨clause, live, literal, inside, rfl⟩ := mentioned
  have present : engine.picture.Present literal.var :=
    (sound.wellFormed.admits _ (Arena.literals_mem_contents live)).present literal inside
  have works : Works .propagation (probeVar literal.var) (tool, engine) _ :=
    works_probeVar able.applied present isOpen
  have extended : ∀ {after : Engine} {log : Option (List ProofStep)},
      Steps .propagation engine.picture { after.picture with log := log } → after.trail.Orderly →
        engine.trail.literals.toList <+: after.trail.literals.toList := by
    intro after log steps orderly
    obtain ⟨more, appended⟩ := Steps.root_append steps
    change after.trail.facts = engine.trail.facts ++ more at appended
    rw [orderly, ready.orderly] at appended
    exact ⟨more, appended.symm⟩
  refine ((probeVar_finishes able id present isOpen).and_ends (works sound)).imp ?_ ?_
  · rintro _ after ⟨concludes, leads, _⟩
    exact ⟨concludes, leads.inStep.trail.atRoot,
      extended leads.steps (leads.orderly ready.orderly),
      leads.inStep.trail.agrees⟩
  · rintro cause after ⟨refuses, fails⟩
    obtain ⟨log, steps⟩ := fails.reached
    exact ⟨refuses, fails.inStep.trail.atRoot, extended steps (fails.orderly ready.orderly),
      fails.inStep.trail.agrees⟩

omit [Realm] in
/-- One of two literals fails, and what follows from its complement is closed. -/
theorem probeVar_learns_exactly_failed :
    ∃ (engine after : Engine) (tool toolAfter : Tool Unit), engine.Ready ∧ engine.Current ∧
      engine.trail.head ≤ engine.trail.literals.size ∧
      (∀ clause ∈ engine.arena.liveClauses, ∀ literal ∈ clause.literals,
        ¬ engine.trail.Removed literal.var) ∧
      engine.trail.value? 1 = some none ∧
      (∃ clause ∈ engine.arena.liveClauses, ∃ literal ∈ clause.literals, literal.var = 1) ∧
      probeVar 1 (tool, engine) = .done () (toolAfter, after) ∧
      after.trail.rootLiterals.map Literal.toInt = [-1, 4] ∧
      Concludes engine (learnedRoot engine (.ofVar 1 true)) after ∧ engine.BackAtRoot after := by
  obtain ⟨_, start, made, ⟨isOpen, current, head, unassigned, mentioned⟩, _, ⟨toolAfter, after⟩,
      ended, root⟩ :
      (Simplifier.addClauses [[-1, 2], [-1, 3], [-2, -3, -1], [1, 4], [2, 3, 5]]).Returns
        (.ofVars {} 5) fun _ start =>
          (start.engine.unsat = false ∧
            start.engine.trail.literals.size ≤ start.engine.applied ∧
            start.engine.trail.head ≤ start.engine.trail.literals.size ∧
            start.engine.trail.value? 1 = some none ∧
            ∃ clause ∈ start.engine.arena.liveClauses, ∃ literal ∈ clause.literals,
              literal.var = 1) ∧
          (probeVar 1).Returns (start.tools.probing, start.engine) fun _ after =>
            after.2.trail.rootLiterals.map Literal.toInt = [-1, 4] := by
    decide +kernel
  obtain ⟨ready, kept⟩ := Simplifier.ready_of_ofClauses made (by decide) isOpen
  exact ⟨start.engine, after, _, toolAfter, ready, current, head, kept, unassigned, mentioned,
    ended, root,
    (probeVar_learns_exactly ready current head kept unassigned mentioned).ends.done_of_eq ended⟩

end Probing

end CnfSimplifier
