import CnfSimplifier.Proofs.History

/-!
# Consistent engines

An engine is consistent if every live clause has the form of a clause, every list of
the index holds exactly the live clauses with its literal, and the counters say how
many live clauses there are. All of this can be checked without knowing how the engine
came about. It is *ready* if besides nothing was decided, the trail holds the values of
the variables, and the clauses are free of the root literals applied so far.

Techniques may be started on any ready engine: it is sound in the sense in which they
are described. What they leave is consistent again, as soon as no list is dirty.
-/
namespace CnfSimplifier

/-- The realm of all variables, with clauses over removed ones. -/
abbrev Realm.lenient : Realm := ⟨fun _ => True, True, True, id⟩

/-- The realm of all variables, with root literals of removed ones. -/
abbrev Realm.rootLenient : Realm := ⟨fun _ => True, False, True, False.elim⟩

/-- An entry of the index lists the live clauses with its literal, each once, and
counts them. -/
structure Occurrence.Exact (entry : Occurrence) (arena : Arena) (literal : Literal) : Prop where
  nodup : entry.handles.toList.Nodup
  mem_iff : ∀ handle, handle ∈ entry.handles.toList ↔
    ∃ clause, arena.live? handle = some clause ∧ literal ∈ clause.literals
  count : entry.count = entry.handles.size
  clean : entry.dirty = false

/-- The form of a live clause over a number of variables. -/
structure FormedOver (numVars : Nat) (literals : List Literal) : Prop where
  two : 2 ≤ literals.length
  ascending : literals.Pairwise (· < ·)
  proper : ∀ literal ∈ literals, literal.complement ∉ literals
  inRange : ∀ literal ∈ literals, 0 < literal.var ∧ literal.var ≤ numVars

instance (numVars : Nat) (literals : List Literal) : Decidable (FormedOver numVars literals) :=
  decidable_of_iff (2 ≤ literals.length ∧ literals.Pairwise (· < ·) ∧
      (∀ literal ∈ literals, literal.complement ∉ literals) ∧
      ∀ literal ∈ literals, 0 < literal.var ∧ literal.var ≤ numVars)
    ⟨fun ⟨two, ascending, proper, inRange⟩ => ⟨two, ascending, proper, inRange⟩,
      fun ⟨two, ascending, proper, inRange⟩ => ⟨two, ascending, proper, inRange⟩⟩

/-! ## Live clauses -/

namespace Arena

variable {arena : Arena} {clause : Clause}

theorem mem_liveClauses : clause ∈ arena.liveClauses ↔
    ∃ slot : Nat, arena.slots[slot]? = some clause ∧ clause.isDead = false := by
  unfold liveClauses
  rw [List.mem_filter, List.mem_iff_getElem?]
  simp only [Array.getElem?_toList, Bool.not_eq_true', exists_and_right]

theorem mem_liveClauses_of_live? {handle : Handle} (live : arena.live? handle = some clause) :
    clause ∈ arena.liveClauses := by
  obtain ⟨found, alive⟩ := live?_eq_some.1 live
  exact mem_liveClauses.2 ⟨handle.index, (get?_eq_some.1 found).2, alive⟩

theorem literals_mem_contents (live : clause ∈ arena.liveClauses) : clause.literals ∈ arena.contents := by
  obtain ⟨slot, found, alive⟩ := mem_liveClauses.1 live
  exact mem_contents.2 ⟨slot, clause, found, alive, rfl⟩

theorem exists_liveClause {literals : List Literal}
    (stored : literals ∈ arena.contents) : ∃ clause ∈ arena.liveClauses,
      clause.literals = literals := by
  obtain ⟨slot, clause, found, alive, rfl⟩ := mem_contents.1 stored
  exact ⟨clause, mem_liveClauses.2 ⟨slot, found, alive⟩, rfl⟩

/-- Counting is a total. -/
theorem total_eq_countP (arena : Arena) (holds : Clause → Bool) :
    (arena.total fun clause => if holds clause then 1 else 0) =
      arena.liveClauses.countP holds := by
  rw [total_eq_liveClauses]
  induction arena.liveClauses with
  | nil => rfl
  | cons clause rest ih =>
    rw [List.map_cons, List.sum_cons, ih, List.countP_cons]
    cases holds clause <;> simp [add_comm]

theorem total_one (arena : Arena) : (arena.total fun _ => 1) = arena.liveClauses.length := by
  rw [total_eq_liveClauses]
  simp

/-- The total size is that of the live clauses. -/
theorem total_size (arena : Arena) :
    (arena.total fun clause => clause.size) = (arena.liveClauses.map Clause.size).sum := by
  rw [total_eq_liveClauses]
  induction arena.liveClauses with
  | nil => rfl
  | cons clause rest ih =>
    rw [List.map_cons, List.sum_cons, ih, List.map_cons, List.sum_cons, Int.natCast_add]

end Arena

/-! ## Between exact lists and right ones -/

namespace Indexed

variable {room : Nat} {index : Occurrences} {arena : Arena}

/-- A clean entry among right ones is exact. -/
theorem exact (indexed : Indexed room index arena) {literal : Literal} {entry : Occurrence}
    (found : index.entry? literal = some entry) (isClean : entry.dirty = false) :
    entry.Exact arena literal := by
  have list : index.list? literal = some entry.handles := by
    rw [Occurrences.list?, found, Option.map_some]
  have nodup := indexed.listed.nodup literal _ list
  have exact : ∀ handle, handle ∈ entry.handles.toList ↔
      ∃ clause, arena.live? handle = some clause ∧ literal ∈ clause.literals := by
    intro handle
    constructor
    · intro member
      obtain ⟨clause, live⟩ := indexed.tallied.clean literal _ found isClean handle member
      exact ⟨clause, live, indexed.listed.sound literal _ list handle member clause live⟩
    · rintro ⟨clause, live, inside⟩
      exact indexed.listed.mem_of_live live inside list
  refine ⟨nodup, exact, ?_, isClean⟩
  rw [indexed.tallied.count literal _ found, ← Array.length_toList]
  refine congrArg Nat.cast (Arena.length_of_holds indexed.space.le nodup fun handle => ?_).symm
  rw [exact, Arena.holds_iff]

/-- Where no list is dirty every entry is exact. -/
theorem exact_of_clean (indexed : Indexed room index arena) (clean : index.dirty = #[])
    {literal : Literal} {entry : Occurrence} (found : index.entry? literal = some entry) :
    entry.Exact arena literal := by
  apply indexed.exact found
  by_contra isDirty
  have known := indexed.tallied.known literal entry found (by simpa using isDirty)
  rw [clean] at known
  cases known

/-- Exact entries are right if there is one for every literal of a live clause. -/
theorem of_exact (exact : ∀ literal entry, index.entry? literal = some entry →
      entry.Exact arena literal)
    (covered : ∀ clause ∈ arena.liveClauses, ∀ literal ∈ clause.literals,
      literal.index < index.entries.size)
    (space : arena.slots.size < UInt32.size) : Indexed index.entries.size index arena where
  listed := by
    have known : ∀ {literal handles}, index.list? literal = some handles →
        ∃ entry : Occurrence, entry.handles = handles ∧ entry.Exact arena literal := by
      intro literal handles list
      obtain ⟨entry, found, rfl⟩ := Option.map_eq_some_iff.1 list
      exact ⟨entry, rfl, exact literal entry found⟩
    refine ⟨fun slot clause found alive literal inside => ?_, fun literal handles list => ?_,
      fun literal handles list handle member => ?_,
      fun literal handles list handle member clause live => ?_⟩
    · have live := Arena.live?_handleAt space.le found alive
      have bound := covered clause (Arena.mem_liveClauses.2 ⟨slot, found, alive⟩) literal inside
      have isEntry : index.entry? literal = some index.entries[literal.index] :=
        Array.getElem?_eq_getElem bound
      refine ⟨_, ?_, ((exact literal _ isEntry).mem_iff _).2 ⟨clause, live, inside⟩⟩
      rw [Occurrences.list?, isEntry, Option.map_some]
    · obtain ⟨entry, rfl, exact⟩ := known list
      exact exact.nodup
    · obtain ⟨entry, rfl, exact⟩ := known list
      obtain ⟨clause, live, _⟩ := (exact.mem_iff handle).1 member
      obtain ⟨current, inSlot⟩ := Arena.get?_eq_some.1 (Arena.live?_eq_some.1 live).1
      exact ⟨current, (Array.getElem?_eq_some_iff.1 inSlot).1⟩
    · obtain ⟨entry, rfl, exact⟩ := known list
      obtain ⟨found, again, inside⟩ := (exact.mem_iff handle).1 member
      rw [live, Option.some.injEq] at again
      exact again ▸ inside
  space := space
  tallied := by
    refine ⟨fun literal entry found => ?_, fun literal entry found _ handle member => ?_,
      fun literal entry found isDirty => ?_⟩
    · have exact := exact literal entry found
      rw [exact.count, ← Array.length_toList]
      refine congrArg Nat.cast (Arena.length_of_holds space.le exact.nodup fun handle => ?_)
      rw [exact.mem_iff, Arena.holds_iff]
    · obtain ⟨clause, live, _⟩ := ((exact literal entry found).mem_iff handle).1 member
      exact ⟨clause, live⟩
    · rw [(exact literal entry found).clean] at isDirty
      cases isDirty
  room := rfl

end Indexed

/-- Only variables have values. -/
theorem Trail.var_le_of_mem_facts {trail : Trail} {literal : Literal}
    (fact : literal ∈ trail.facts) : literal.var ≤ trail.numVars := by
  obtain ⟨_, value⟩ := Trail.mem_facts.1 fact
  obtain ⟨state, found, _⟩ := Option.map_eq_some_iff.1 value
  have inside : literal.var < trail.vars.size := (Array.getElem?_eq_some_iff.1 found).1
  unfold Trail.numVars
  omega

namespace Engine

variable {engine after : Engine}

/-- Clauses, lists and counters are right. -/
structure Consistent (engine : Engine) : Prop where
  formed : ∀ clause ∈ engine.arena.liveClauses, FormedOver engine.numVars clause.literals
  listed : ∀ literal, literal.var ≤ engine.numVars →
    ∃ entry, engine.index.entry? literal = some entry ∧ entry.Exact engine.arena literal
  /-- No list waits for being cleaned. -/
  clean : engine.index.dirty = #[]
  /-- The index has two entries a variable, and two for the variable zero. -/
  room : engine.index.entries.size = 2 * engine.trail.vars.size
  /-- Every slot has a name, and none has the reserved one. -/
  space : engine.arena.slots.size < UInt32.size
  active : engine.arena.active = engine.arena.liveClauses.length
  binary : engine.arena.binary = engine.arena.liveClauses.countP fun clause => clause.size = 2
  redundant : engine.arena.redundant = engine.arena.liveClauses.countP Clause.isRedundant
  literals : engine.arena.literals = (engine.arena.liveClauses.map Clause.size).sum

/-- No level is open, the trail has the values of the variables, and no clause has a
literal of a variable that was applied. -/
structure Ready (engine : Engine) : Prop extends Consistent engine where
  trail : engine.trail.Sound
  orderly : engine.trail.Orderly
  named : ∀ literal ∈ engine.trail.rootLiterals, 0 < literal.var
  inTrail : engine.applied ≤ engine.trail.rootLiterals.length
  unmentioned : ∀ literal ∈ engine.trail.rootLiterals.take engine.applied,
    ∀ clause ∈ engine.arena.liveClauses, ∀ other ∈ clause.literals, other.var ≠ literal.var

/-! ## Engines -/

/-- The counters are right if they say what the live clauses say. -/
theorem Consistent.counted (consistent : engine.Consistent) : engine.arena.Counted where
  active := consistent.active.trans (Arena.total_one _).symm
  literals := consistent.literals.trans (Arena.total_size _).symm
  binary := by
    rw [consistent.binary, ← Arena.total_eq_countP]
    simp
  redundant := consistent.redundant.trans (Arena.total_eq_countP _ _).symm

/-- Where there is an entry there is a variable. -/
theorem Consistent.var_le (consistent : engine.Consistent) {literal : Literal}
    {entry : Occurrence} (found : engine.index.entry? literal = some entry) :
    literal.var ≤ engine.numVars := by
  obtain ⟨inside, _⟩ := Array.getElem?_eq_some_iff.1 found
  rw [consistent.room] at inside
  change literal.code.toNat / 2 ≤ engine.trail.vars.size - 1
  change literal.code.toNat < _ at inside
  omega

/-- In a consistent engine each list is exact. -/
theorem Consistent.exact (consistent : engine.Consistent) {literal : Literal}
    {entry : Occurrence} (found : engine.index.entry? literal = some entry) :
    entry.Exact engine.arena literal := by
  obtain ⟨known, again, exact⟩ := consistent.listed literal (consistent.var_le found)
  rw [found, Option.some.injEq] at again
  exact again ▸ exact

/-- In a consistent engine every clause is filed. -/
theorem Consistent.filed (consistent : engine.Consistent) :
    Filed (2 * engine.trail.vars.size) engine.index engine.arena := by
  have covered : ∀ clause ∈ engine.arena.liveClauses, ∀ literal ∈ clause.literals,
      literal.index < engine.index.entries.size := by
    intro clause live literal inside
    have inRange := ((consistent.formed clause live).inRange literal inside).2
    obtain ⟨_, found, _⟩ := consistent.listed literal inRange
    exact (Array.getElem?_eq_some_iff.1 found).1
  have indexed := Indexed.of_exact (fun _ _ found => consistent.exact found) covered
    consistent.space
  exact .of_indexed (consistent.room ▸ indexed) consistent.counted

/-- Where arena and index agree, no list is dirty and the clauses have their form, the
engine is consistent. -/
theorem consistent_of_filed (filed : Filed (2 * engine.trail.vars.size) engine.index engine.arena)
    (nonempty : 0 < engine.trail.vars.size)
    (formed : ∀ clause ∈ engine.arena.liveClauses, FormedOver engine.numVars clause.literals)
    (clean : engine.index.dirty = #[]) : engine.Consistent where
  formed := formed
  listed literal inRange := by
    have inside : literal.index < engine.index.entries.size := by
      rw [filed.room]
      change literal.code.toNat < _
      change literal.code.toNat / 2 ≤ engine.trail.vars.size - 1 at inRange
      omega
    have found : engine.index.entry? literal = some engine.index.entries[literal.index] :=
      Array.getElem?_eq_getElem inside
    exact ⟨_, found, filed.indexed.exact_of_clean clean found⟩
  clean := clean
  room := filed.room
  space := filed.space
  active := filed.counted.active.trans (Arena.total_one _)
  binary := by
    rw [filed.counted.binary, ← Arena.total_eq_countP]
    simp
  redundant := filed.counted.redundant.trans (Arena.total_eq_countP _ _)
  literals := filed.counted.literals.trans (Arena.total_size _)

/-- A sound engine without dirty lists is consistent. -/
theorem Sound.consistent [Realm] (sound : engine.Sound) (clean : engine.index.dirty = #[]) :
    engine.Consistent := by
  refine consistent_of_filed sound.toFiled sound.trail.nonempty (fun clause live => ?_) clean
  obtain ⟨sorted, two, present, proper⟩ :=
    sound.wellFormed.admits _ (Arena.literals_mem_contents live)
  exact ⟨two, sorted, proper, fun literal inside =>
    ⟨(present literal inside).1, (present literal inside).2.1⟩⟩

/-- The counted clauses are no more than the slots. -/
theorem Consistent.active_le (consistent : engine.Consistent) :
    engine.arena.active ≤ engine.arena.slots.size := by
  rw [consistent.active, ← Array.length_toList]
  exact_mod_cast List.length_filter_le _ _

/-! ## Ready engines -/

theorem Ready.facts (ready : engine.Ready) :
    engine.trail.facts = engine.trail.rootLiterals := by
  rw [ready.trail.rootLiterals]
  exact ready.orderly

/-- An engine that is ready has no level open. -/
theorem Ready.settled (ready : engine.Ready) : engine.Settled where
  orderly := ready.orderly
  settles := by
    refine ⟨?_, fun literal member mentions => ?_⟩
    · change engine.applied ≤ engine.trail.facts.length
      rw [ready.facts]
      exact ready.inTrail
    · change literal ∈ engine.trail.facts.take engine.applied at member
      rw [ready.facts] at member
      obtain ⟨literals, stored, other, inside, same⟩ := mentions
      obtain ⟨clause, live, rfl⟩ := Arena.exists_liveClause stored
      exact ready.unmentioned literal member clause live other inside same

/-- A ready engine is sound in every realm of all variables that root literals of
removed ones fit into. -/
theorem Ready.sound [realm : Realm] (ready : engine.Ready) (all : ∀ name, realm.Has name)
    (lenientRoot : realm.LenientRoot)
    (kept : ∀ clause ∈ engine.arena.liveClauses, ∀ literal ∈ clause.literals,
      ¬ engine.trail.Removed literal.var ∨ realm.Lenient) : engine.Sound where
  toFiled := ready.filed
  trail := ready.trail
  due literal member := by
    rw [ready.orderly]
    exact List.mem_of_mem_drop member
  wellFormed := by
    refine ⟨fun literals stored => ?_, fun literal atRoot => ?_, engine.trail.nodup_facts⟩
    · obtain ⟨clause, live, rfl⟩ := Arena.exists_liveClause stored
      obtain ⟨two, sorted, proper, inRange⟩ := ready.formed clause live
      refine ⟨sorted, two, fun literal inside => ?_, proper⟩
      obtain ⟨positive, bound⟩ := inRange literal inside
      exact ⟨positive, bound, kept clause live literal inside, all _⟩
    · change literal ∈ engine.trail.facts at atRoot
      exact ⟨ready.named literal (ready.facts ▸ atRoot), Trail.var_le_of_mem_facts atRoot,
        .inr lenientRoot, all _⟩

/-- Where clauses mention no removed variable, only root literals may be over one. -/
theorem Ready.rootSound (ready : engine.Ready)
    (kept : ∀ clause ∈ engine.arena.liveClauses, ∀ literal ∈ clause.literals,
      ¬ engine.trail.Removed literal.var) : @Sound .rootLenient engine :=
  let _ : Realm := .rootLenient
  ready.sound (fun _ => trivial) trivial fun clause live literal inside =>
    .inl (kept clause live literal inside)

/-- A sound engine to which root literals were applied is ready, unless lists are dirty. -/
theorem Sound.ready [Realm] (sound : engine.Sound) (settled : engine.Settled)
    (clean : engine.index.dirty = #[]) : engine.Ready where
  toConsistent := sound.consistent clean
  trail := sound.trail
  orderly := settled.orderly
  named literal atRoot := by
    rw [sound.trail.rootLiterals, ← settled.orderly] at atRoot
    exact (sound.wellFormed.known literal atRoot).1
  inTrail := by
    rw [sound.trail.rootLiterals, ← settled.orderly]
    exact settled.settles.inTrail
  unmentioned literal member clause live other inside same := by
    rw [sound.trail.rootLiterals, ← settled.orderly] at member
    exact settled.settles.unmentioned literal member
      ⟨clause.literals, Arena.literals_mem_contents live, other, inside, same⟩

end Engine

/-! ## Simplifiers between calls -/

namespace Simplifier

/-- As long as the formula is open, the engine is ready. -/
theorem Standing.ready {simplifier : Simplifier} {records : List Record}
    (standing : simplifier.Standing records) (isOpen : simplifier.engine.unsat = false) :
    simplifier.engine.Ready :=
  @Engine.Sound.ready _ .all standing.sound (standing.settled isOpen) standing.sane.clean

/-- No clause has a literal of a removed variable. -/
theorem Standing.kept {simplifier : Simplifier} {records : List Record}
    (standing : simplifier.Standing records) :
    ∀ clause ∈ simplifier.engine.arena.liveClauses, ∀ literal ∈ clause.literals,
      ¬ simplifier.engine.trail.Removed literal.var := by
  intro clause live literal inside
  let _ : Realm := .all
  have admits := standing.sane.formed.admits _ (Arena.literals_mem_contents live)
  exact (admits.present literal inside).2.2.1.resolve_right id

/-- The engine of a formula that was read in is ready. -/
theorem ready_of_ofClauses {settings : Settings} {formula : List (List Int)} {start : Simplifier}
    (made : ofClauses settings formula = .done () start)
    (small : ∀ clause ∈ formula, ∀ literal ∈ clause, literal.natAbs < 2 ^ 31)
    (isOpen : start.engine.unsat = false) :
    start.engine.Ready ∧ ∀ clause ∈ start.engine.arena.liveClauses,
      ∀ literal ∈ clause.literals, ¬ start.engine.trail.Removed literal.var := by
  obtain ⟨_, _, _, _, course, _⟩ := exists_course_of_ofClauses made small
  exact ⟨course.standing.ready isOpen, course.standing.kept⟩

end Simplifier

end CnfSimplifier
