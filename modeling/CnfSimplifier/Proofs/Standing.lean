import CnfSimplifier.Proofs.Calls
import CnfSimplifier.Proofs.ExportedFormula

/-!
# Where calls leave a simplifier

Between calls a simplifier is *standing*: nothing is wrong with its engine, no
clause is redundant, the stack of records is known, and the numbering numbers
variables, each once. A call *moves* it: clauses may be taken in, records may be
pushed, and models go over in both directions, backwards with the help of the
records.

Nothing that is done to a formula brings in a variable that appears neither in it nor
in a clause taken in. So a variable may be anything that the variables of the formula
are, which is what the realm of a run is chosen to be.
-/
namespace CnfSimplifier

variable {realm : Realm} {picture other : Picture}

/-- The realm of some variables, removed ones excepted. -/
@[reducible] def Realm.within (has : Nat → Prop) : Realm where
  Has := has
  Lenient := False
  LenientRoot := False
  lenientRoot := id

/-- The realm of all variables, removed ones excepted. -/
abbrev Realm.all : Realm := .within fun _ => True

/-- A variable of the clauses or of the root literals. -/
def Picture.Appears (picture : Picture) (name : Nat) : Prop :=
  ∃ clause ∈ picture.formula, ∃ literal ∈ clause, literal.var = name

/-- A well-formed picture keeps to its realm. -/
theorem Picture.WellFormed.has_of_appears {picture : Picture} {name : Nat}
    (wellFormed : picture.WellFormed) (appears : picture.Appears name) : realm.Has name := by
  obtain ⟨clause, member, literal, inside, rfl⟩ := appears
  exact (wellFormed.known_of_mem member inside).2.2.2

/-- The realm may be any other that the formula keeps to. -/
theorem Picture.WellFormed.within {picture : Picture} {has : Nat → Prop}
    (wellFormed : picture.WellFormed) (strict : ¬ realm.LenientRoot)
    (keeps : ∀ name, picture.Appears name → has name) :
    @Picture.WellFormed (.within has) picture := by
  obtain ⟨admits, known, distinct⟩ := wellFormed
  let _ : Realm := .within has
  refine ⟨fun clause member => ?_, fun literal atRoot => ?_, distinct⟩
  · obtain ⟨sorted, two, present, proper⟩ := admits clause member
    refine ⟨sorted, two, fun literal inside => ?_, proper⟩
    obtain ⟨positive, inRange, kept, _⟩ := present literal inside
    refine ⟨positive, inRange, .inl ?_, keeps _ ⟨clause, .inl member, literal, inside, rfl⟩⟩
    exact kept.resolve_right fun lenient => strict (realm.lenientRoot lenient)
  · obtain ⟨positive, inRange, kept, _⟩ := known literal atRoot
    exact ⟨positive, inRange, .inl (kept.resolve_right strict),
      keeps _ ⟨[literal], Picture.mem_formula_of_root atRoot, literal, List.mem_cons_self, rfl⟩⟩

/-- The form of a formula depends on its clauses, root literals and variables alone. -/
theorem Picture.WellFormed.of_same (wellFormed : picture.WellFormed)
    (clauses : other.clauses = picture.clauses) (root : other.root = picture.root)
    (numVars : picture.numVars ≤ other.numVars) (removed : other.removed = picture.removed) :
    other.WellFormed := by
  obtain ⟨admits, known, distinct⟩ := wellFormed
  refine ⟨fun clause member => ?_, fun literal atRoot => ?_, root ▸ distinct⟩
  · obtain ⟨sorted, two, present, proper⟩ := admits clause (clauses ▸ member)
    refine ⟨sorted, two, fun literal inside => ?_, proper⟩
    obtain ⟨positive, inRange, kept, inRealm⟩ := present literal inside
    exact ⟨positive, inRange.trans numVars, removed ▸ kept, inRealm⟩
  · obtain ⟨positive, inRange, kept, inRealm⟩ := known literal (root ▸ atRoot)
    exact ⟨positive, inRange.trans numVars, removed ▸ kept, inRealm⟩

theorem Picture.formula_eq_of_same (clauses : other.clauses = picture.clauses)
    (root : other.root = picture.root) : other.formula = picture.formula := by
  unfold Picture.formula
  rw [clauses, root]

theorem Picture.holds_of_same (clauses : other.clauses = picture.clauses)
    (root : other.root = picture.root) {values : Assignment} :
    other.Holds values ↔ picture.Holds values := by
  unfold Picture.Holds
  rw [Picture.formula_eq_of_same clauses root]

namespace Engine

variable {engine : Engine} {has : Nat → Prop}

/-- An engine of which nothing is wrong, whatever realm its formula keeps to. -/
structure Sane (engine : Engine) : Prop extends InStep engine where
  formed : @Picture.WellFormed .all engine.picture
  intact : engine.poisoned = none
  accounts : engine.trail.Accounts
  clean : engine.index.dirty = #[]

theorem Sane.healthy (sane : engine.Sane)
    (keeps : ∀ name, engine.picture.Appears name → has name) : @Healthy (.within has) engine :=
  let _ : Realm := .within has
  { toInStep := sane.toInStep
    wellFormed := sane.formed.within id keeps
    strict := id
    intact := sane.intact
    accounts := sane.accounts
    clean := sane.clean }

theorem Healthy.sane {realm : Realm} (healthy : engine.Healthy) (strict : ¬ realm.LenientRoot) :
    engine.Sane where
  toInStep := healthy.toInStep
  formed := healthy.wellFormed.within strict fun _ _ => trivial
  intact := healthy.intact
  accounts := healthy.accounts
  clean := healthy.clean

/-- Proof, verdict and notices do not matter. -/
theorem Sane.of_same {after : Engine} (sane : engine.Sane) (arena : after.arena = engine.arena)
    (index : after.index = engine.index) (trail : after.trail = engine.trail)
    (applied : after.applied = engine.applied) (poisoned : after.poisoned = engine.poisoned) :
    after.Sane where
  toInStep := sane.toInStep.of_same arena index trail applied
  formed := by
    refine sane.formed.of_same ?_ ?_ (Nat.le_of_eq ?_) ?_ <;>
      simp only [picture, numVars, arena, trail]
  intact := poisoned.trans sane.intact
  accounts := trail ▸ sane.accounts
  clean := index ▸ sane.clean

end Engine

namespace Simplifier

variable {simplifier before after : Simplifier} {records : List Record} {count : Nat}

/-- A simplifier between calls. -/
structure Standing (simplifier : Simplifier) (records : List Record) : Prop where
  sane : simplifier.engine.Sane
  settled : simplifier.engine.unsat = false → simplifier.engine.Settled
  irredundant : simplifier.engine.arena.Irredundant
  stack : simplifier.engine.records = ({} : Reconstruction).pushAll records
  numbered : simplifier.numbering.isActive = true → simplifier.numbering.names.toList.Nodup ∧
    ∀ name ∈ simplifier.numbering.names.toList, 0 < name ∧ name ≤ simplifier.numVars

/-- Of the engine only the formula, the records and the verdict matter. -/
theorem Standing.of_same (standing : before.Standing records)
    (arena : after.engine.arena = before.engine.arena)
    (index : after.engine.index = before.engine.index)
    (trail : after.engine.trail = before.engine.trail)
    (applied : after.engine.applied = before.engine.applied)
    (poisoned : after.engine.poisoned = before.engine.poisoned)
    (unsat : after.engine.unsat = before.engine.unsat)
    (stack : after.engine.records = before.engine.records)
    (numbering : after.numbering = before.numbering)
    (numVars : after.numVars = before.numVars) : after.Standing records where
  sane := standing.sane.of_same arena index trail applied poisoned
  settled isOpen := by
    obtain ⟨orderly, inTrail, unmentioned⟩ := standing.settled (unsat ▸ isOpen)
    refine ⟨trail ▸ orderly, ?_, ?_⟩
    · simpa only [Engine.picture, trail, applied] using inTrail
    · simpa only [Engine.picture, Picture.Mentions, trail, applied, arena] using unmentioned
  irredundant := arena ▸ standing.irredundant
  stack := stack.trans standing.stack
  numbered := by
    rw [numbering, numVars]
    exact standing.numbered

theorem Standing.fit (standing : simplifier.Standing records)
    (isOpen : simplifier.engine.unsat = false) :
    @Engine.Fit (.within simplifier.engine.picture.Appears) simplifier.engine :=
  let _ : Realm := .within simplifier.engine.picture.Appears
  { toHealthy := standing.sane.healthy fun _ appears => appears
    isOpen := isOpen
    settled := standing.settled isOpen }

theorem Standing.sound (standing : simplifier.Standing records) :
    @Engine.Sound .all simplifier.engine :=
  let _ : Realm := .all
  ⟨standing.sane.toInStep, standing.sane.formed⟩

/-- What is standing can be exported. -/
theorem Standing.exportable (standing : simplifier.Standing records)
    (isOpen : simplifier.engine.unsat = false) : simplifier.Exportable where
  trail := standing.sane.trail
  orderly := (standing.settled isOpen).orderly
  root literal atRoot := by
    let _ : Realm := .all
    obtain ⟨positive, inRange, _⟩ := standing.sane.formed.known literal atRoot
    exact ⟨positive, inRange⟩
  numbered := standing.numbered

/-- Records away from the separator make the extension of models possible. -/
theorem Standing.extensible (standing : simplifier.Standing records)
    (isOpen : simplifier.engine.unsat = false)
    (inRange : ∀ record ∈ records, ∀ literal ∈ record.literals,
      0 < literal.var ∧ literal.var ≤ simplifier.numVars ∧ literal ≠ Literal.separator) :
    simplifier.Extensible records where
  toExportable := standing.exportable isOpen
  intact := standing.sane.intact
  stack := standing.stack
  inRange := inRange

/-- A variable has a number, or no numbering is in effect. -/
def Numbered (simplifier : Simplifier) (name : Nat) : Prop :=
  simplifier.numbering.isActive = true → name ∈ simplifier.numbering.names.toList

instance (simplifier : Simplifier) (name : Nat) : Decidable (simplifier.Numbered name) :=
  inferInstanceAs (Decidable (_ → _))

theorem Numbered.exists_number? {name : Nat} (numbered : simplifier.Numbered name) :
    ∃ number, simplifier.number? name = some number := by
  unfold number?
  split
  next active => exact Numbering.exists_lastPlace? (numbered active) 1
  next => exact ⟨name, rfl⟩

/-- If all variables that appear have numbers, the formula is exported as a whole. -/
theorem numbers_of_numbered
    (numbered : ∀ name, simplifier.engine.picture.Appears name → simplifier.Numbered name) :
    simplifier.Numbers := fun clause member literal inside =>
  (numbered _ ⟨clause, member, literal, inside, rfl⟩).exists_number?

/-- All variables of the formula have their numbers, so that nothing of it is left out on
export. -/
def Covered (simplifier : Simplifier) : Prop :=
  ∀ name, 0 < name → simplifier.engine.picture.Appears name → simplifier.Numbered name

/-- Under the same numbering a part of the formula is covered if the whole is. -/
theorem Covered.of_part (covered : before.Covered) (numbering : after.numbering = before.numbering)
    (part : after.engine.picture.formula ⊆ before.engine.picture.formula) : after.Covered := by
  rintro name positive ⟨clause, member, literal, inside, rfl⟩
  unfold Numbered
  rw [numbering]
  exact covered _ positive ⟨clause, part member, literal, inside, rfl⟩

/-- How a numbering goes on: new variables are numbered in order, or a numbering is
built that fits the formula. -/
inductive Renumbers (before after : Simplifier) : Prop
  | onward (active : after.numbering.isActive = before.numbering.isActive)
    (names : before.numbering.isActive = true → after.numbering.names.toList =
      before.numbering.names.toList ++
        List.range' (before.numVars + 1) (after.numVars - before.numVars))
  | built (wanted : before.engine.settings.renumbering = true)
    (inactive : before.numbering.isActive = false)
    (fits : after.numbering.Fits after.engine.picture)

theorem Renumbers.of_same (numbering : after.numbering = before.numbering)
    (numVars : after.numVars = before.numVars) : before.Renumbers after := by
  refine .onward (by rw [numbering]) fun _ => ?_
  rw [numbering, numVars, Nat.sub_self]
  exact (List.append_nil _).symm

/-- What a call did: the clauses that were taken in and the records that were
pushed. -/
structure Moves (before : Simplifier) (taken : List (List Literal))
    (more : List Record) (after : Simplifier) : Prop where
  numVars : before.numVars ≤ after.numVars
  settings : after.engine.settings = before.engine.settings
  removed : ∀ name, after.engine.trail.Removed name →
    before.engine.trail.Removed name ∨ ¬ before.engine.trail.Frozen name
  records : after.engine.records = before.engine.records.pushAll more
  within : ∀ record ∈ more, ∀ literal ∈ record.literals,
    0 < literal.var ∧ literal.var ≤ after.numVars ∧ before.engine.picture.Appears literal.var
  unprotected : ∀ record ∈ more, ¬ before.engine.trail.Frozen record.chosen.var
  present : ∀ clause ∈ taken, ∀ literal ∈ clause, 0 < literal.var ∧ literal.var ≤ after.numVars
  appears : ∀ name, after.engine.picture.Appears name → before.engine.picture.Appears name ∨
    ∃ clause ∈ taken, ∃ literal ∈ clause, literal.var = name
  renumbers : before.Renumbers after
  /-- Models stay models. -/
  forth : ∀ values, before.engine.picture.Holds values →
    (∀ clause ∈ taken, ClauseHolds values clause) → after.engine.picture.Holds values
  /-- Models come back. -/
  back : ∀ values, after.engine.picture.Holds values →
    before.engine.picture.Holds (unwind more values)
  /-- As long as the formula is open, what was taken in is part of it. -/
  stored : after.engine.unsat = false → ∀ values, after.engine.picture.Holds values →
    ∀ clause ∈ taken, ClauseHolds values clause
  closed : before.engine.unsat = true → after.engine.unsat = true
  /-- A formula is refuted only if it has no model. -/
  refuted : after.engine.unsat = true → before.engine.unsat = true ∨
    ∀ values, before.engine.picture.Holds values →
      ¬ ∀ clause ∈ taken, ClauseHolds values clause

/-- A call that leaves the formula. -/
theorem Moves.of_same (numVars : before.numVars ≤ after.numVars)
    (settings : after.engine.settings = before.engine.settings)
    (removed : after.engine.trail.Removed = before.engine.trail.Removed)
    (records : after.engine.records = before.engine.records)
    (clauses : after.engine.picture.clauses = before.engine.picture.clauses)
    (root : after.engine.picture.root = before.engine.picture.root)
    (renumbers : before.Renumbers after) (unsat : after.engine.unsat = before.engine.unsat) :
    Moves before [] [] after where
  numVars := numVars
  settings := settings
  removed _ gone := .inl (removed ▸ gone)
  records := records
  within := by simp
  unprotected := by simp
  present := by simp
  appears name := by
    unfold Picture.Appears
    rw [Picture.formula_eq_of_same clauses root]
    exact .inl
  renumbers := renumbers
  forth values holds _ := (Picture.holds_of_same clauses root).2 holds
  back values holds := (Picture.holds_of_same clauses root).1 holds
  stored := by simp
  closed closed := unsat.trans closed
  refuted closed := .inl (unsat ▸ closed)

/-! ## The empty formula -/

/-- Without clauses all lists are right. -/
theorem filed_ofVars (room : Nat) :
    Filed room { entries := Array.replicate room {}, unlisted := .replicate room } ({} : Arena) where
  listed := by
    have blank : ∀ literal handles,
        Occurrences.list? { entries := Array.replicate room {}, unlisted := .replicate room } literal = some handles →
        handles = #[] := by
      intro literal handles found
      unfold Occurrences.list? Occurrences.entry? at found
      obtain ⟨entry, isEntry, rfl⟩ := Option.map_eq_some_iff.1 found
      rw [Array.getElem?_replicate] at isEntry
      split at isEntry
      · cases isEntry
        rfl
      · cases isEntry
    refine ⟨by simp, fun literal handles found => ?_, fun literal handles found => ?_,
      fun literal handles found => ?_⟩ <;> simp [blank literal handles found]
  space := by simp [UInt32.size]
  counted := ⟨rfl, rfl, rfl, rfl⟩
  tallied := by
    have blank : ∀ literal entry,
        Occurrences.entry? { entries := Array.replicate room {}, unlisted := .replicate room } literal = some entry →
        entry = {} := by
      intro literal entry found
      unfold Occurrences.entry? at found
      rw [Array.getElem?_replicate] at found
      split at found
      · exact (Option.some.inj found).symm
      · cases found
    refine ⟨fun literal entry found => ?_, fun literal entry found => ?_,
      fun literal entry found => ?_⟩ <;> rw [blank literal entry found]
    · rfl
    · simp
    · simp
  room := Array.size_replicate

/-- Nothing is known of a new variable. -/
theorem vars_ofVars {numVars name : Nat} {state : VarState}
    (found : (Trail.ofVars numVars).vars[name]? = some state) : state = {} := by
  change (Array.replicate (numVars + 1) ({} : VarState))[name]? = some state at found
  rw [Array.getElem?_replicate] at found
  split at found
  · exact (Option.some.inj found).symm
  · cases found

/-- A new trail is sound. -/
theorem sound_ofVars {numVars : Nat} (small : numVars < 2 ^ 31) :
    (Trail.ofVars numVars).Sound where
  atRoot := rfl
  small := by
    change (Array.replicate (numVars + 1) ({} : VarState)).size ≤ _
    rw [Array.size_replicate]
    omega
  nonempty := by
    change 0 < (Array.replicate (numVars + 1) ({} : VarState)).size
    rw [Array.size_replicate]
    omega
  agrees := by
    intro literal state _ found assigned
    rw [vars_ofVars found] at assigned
    cases assigned

/-- At the beginning nothing is removed or assigned. -/
theorem accounts_ofVars (numVars : Nat) : (Trail.ofVars numVars).Accounts where
  eliminated := by
    change 0 = ((Array.replicate (numVars + 1) ({} : VarState)).map VarState.flags).countP _
    rw [Array.map_replicate, Array.countP_replicate]
    rfl
  substituted := by
    change 0 = ((Array.replicate (numVars + 1) ({} : VarState)).map VarState.flags).countP _
    rw [Array.map_replicate, Array.countP_replicate]
    rfl
  apart name flags found := by
    obtain ⟨state, isState, rfl⟩ := Option.map_eq_some_iff.1 found
    rw [vars_ofVars isState]
    decide

theorem removed_ofVars (numVars name : Nat) : ¬ (Trail.ofVars numVars).Removed name := by
  rintro ⟨flags, found, isRemoved⟩
  obtain ⟨state, isState, rfl⟩ := Option.map_eq_some_iff.1 found
  rw [vars_ofVars isState] at isRemoved
  cases isRemoved

/-- A simplifier without clauses is standing. -/
theorem standing_ofVars (settings : Settings) {numVars : Nat} (small : numVars < 2 ^ 31) :
    (ofVars settings numVars).Standing [] where
  sane :=
    { toFiled := by
        have size : (Trail.ofVars numVars).vars.size = numVars + 1 := Array.size_replicate
        change Filed (2 * (Trail.ofVars numVars).vars.size) _ _
        rw [size]
        exact filed_ofVars _
      trail := sound_ofVars small
      due := nofun
      formed := by
        let _ : Realm := .all
        refine ⟨fun clause member => ?_, nofun, List.nodup_nil⟩
        exact absurd member (Multiset.notMem_zero clause)
      intact := rfl
      accounts := accounts_ofVars numVars
      clean := rfl }
  settled _ := ⟨rfl, Nat.zero_le _, nofun⟩
  irredundant slot clause found := by simp [ofVars, Engine.ofVars] at found
  stack := rfl
  numbered := nofun

/-! ## Variables -/

theorem Widens.renumbers (widens : before.Widens count after) : before.Renumbers after := by
  refine .onward widens.active fun active => ?_
  rw [widens.names active, widens.numVars, Nat.add_sub_cancel_left]

theorem Widens.clauses (widens : before.Widens count after) :
    after.engine.picture.clauses = before.engine.picture.clauses := by
  rw [widens.picture]

theorem Widens.root (widens : before.Widens count after) :
    after.engine.picture.root = before.engine.picture.root := by
  rw [widens.picture]

theorem Widens.sameRecords (widens : before.Widens count after) :
    after.engine.records = before.engine.records :=
  congrArg Picture.records widens.picture

theorem Widens.frozen (widens : before.Widens count after) :
    after.engine.trail.Frozen = before.engine.trail.Frozen :=
  congrArg Picture.frozen widens.picture

theorem Widens.le_numVars (widens : before.Widens count after) : before.numVars ≤ after.numVars :=
  widens.numVars ▸ Nat.le_add_right _ _

theorem Widens.moves (widens : before.Widens count after) : Moves before [] [] after :=
  .of_same widens.le_numVars widens.settings widens.removed widens.sameRecords widens.clauses
    widens.root widens.renumbers widens.unsat

/-- New variables leave a simplifier standing. -/
theorem Widens.standing (widens : before.Widens count after) (standing : before.Standing records) :
    after.Standing records where
  sane :=
    { toInStep := widens.inStep standing.sane.toInStep
      formed := standing.sane.formed.of_same widens.clauses widens.root widens.le_numVars
        widens.removed
      intact := widens.poisoned.trans standing.sane.intact
      accounts := widens.accounts standing.sane.accounts
      clean := widens.dirty.trans standing.sane.clean }
  settled isOpen := by
    obtain ⟨orderly, settles⟩ := standing.settled (widens.unsat ▸ isOpen)
    refine ⟨widens.orderly orderly, ?_⟩
    rw [widens.picture, widens.applied]
    exact ⟨settles.inTrail, settles.unmentioned⟩
  irredundant := by
    have same := congrArg Picture.irredundant widens.picture
    exact same.mpr standing.irredundant
  stack := widens.sameRecords.trans standing.stack
  numbered active := by
    have before_ := widens.active ▸ active
    obtain ⟨distinct, inRange⟩ := standing.numbered before_
    rw [widens.names before_]
    refine ⟨List.nodup_append.2 ⟨distinct, List.nodup_range' 1, ?_⟩,
      List.forall_mem_append.2 ⟨fun name member => ?_, fun name member => ?_⟩⟩
    · intro name member other isNew same
      have bound := (inRange name member).2
      have later := (List.mem_range'_1.1 isNew).1
      omega
    · obtain ⟨positive, small⟩ := inRange name member
      exact ⟨positive, small.trans widens.le_numVars⟩
    · obtain ⟨first, last⟩ := List.mem_range'_1.1 member
      rw [widens.numVars]
      omega

/-- Variables that are needed keep their numbers, and new ones get some. -/
theorem Renumbers.numbered (renumbers : before.Renumbers after) {name : Nat} (positive : 0 < name)
    (old : before.Numbered name ∨ before.numVars < name ∧ name ≤ after.numVars)
    (needed : after.engine.picture.Appears name ∨ after.engine.trail.Frozen name) :
    after.Numbered name := by
  intro active
  rcases renumbers with ⟨sameActive, names⟩ | ⟨_, _, fits⟩
  · have activeBefore := sameActive ▸ active
    rw [names activeBefore]
    rcases old with numbered | ⟨new, small⟩
    · exact List.mem_append_left _ (numbered activeBefore)
    · exact List.mem_append_right _ (List.mem_range'_1.2 (by omega))
  · rcases needed with ⟨clause, member, literal, inside, rfl⟩ | frozen
    · exact fits.mentioned clause member literal inside
    · exact fits.frozen name positive frozen

/-- Clauses over variables that have numbers, or are new, leave the formula covered. -/
theorem Moves.covered {taken : List (List Literal)} {more : List Record}
    (moves : Moves before taken more after) (covered : before.Covered)
    (numbered : ∀ clause ∈ taken, ∀ literal ∈ clause,
      before.Numbered literal.var ∨ before.numVars < literal.var) : after.Covered := by
  intro name positive appears
  refine moves.renumbers.numbered positive ?_ (.inl appears)
  rcases moves.appears name appears with old | ⟨clause, member, literal, inside, rfl⟩
  · exact .inl (covered name positive old)
  · exact (numbered clause member literal inside).imp_right fun new =>
      ⟨new, (moves.present clause member literal inside).2⟩

/-! ## Clauses -/

/-- A clause over variables that are there is stored. -/
theorem Standing.stores {literals : List Literal} (standing : before.Standing records)
    (present : ∀ literal ∈ literals, @Picture.Present .all before.engine.picture literal.var)
    (stores : before.engine.Stores literals after.engine)
    (numbering : after.numbering = before.numbering) : after.Standing records := by
  let _ : Realm := .all
  have healthy : before.engine.Healthy := standing.sane.healthy fun _ _ => trivial
  have numVars : after.numVars = before.numVars := stores.flags.numVars
  refine ⟨(stores.healthy healthy present).sane id, fun isOpen => ?_,
    stores.irredundant standing.irredundant, stores.records.trans standing.stack, ?_⟩
  · obtain ⟨orderly, settles⟩ := standing.settled (stores.unsat ▸ isOpen)
    exact ⟨stores.orderly orderly, stores.applied ▸ stores.receives.settles settles⟩
  · rw [numbering, numVars]
    exact standing.numbered

/-- The formula is refuted. -/
theorem Standing.refute {proof : Option (Array ProofStep)} (standing : before.Standing records)
    (engine : after.engine = { before.engine with unsat := true, proof := proof })
    (numbering : after.numbering = before.numbering) : after.Standing records := by
  refine ⟨?_, fun isOpen => ?_, ?_, ?_, ?_⟩
  · rw [engine]
    exact standing.sane.of_same rfl rfl rfl rfl rfl
  · rw [engine] at isOpen
    cases isOpen
  · rw [engine]
    exact standing.irredundant
  · rw [engine]
    exact standing.stack
  · unfold numVars
    rw [numbering, engine]
    exact standing.numbered

/-- Whatever leaves the names after widening leaves a numbering that went on. -/
theorem Widens.renumbers_of_same {middle : Simplifier} (widens : before.Widens count middle)
    (numbering : after.numbering = middle.numbering) (numVars : after.numVars = middle.numVars) :
    before.Renumbers after := by
  refine .onward ?_ fun active => ?_
  · rw [numbering, widens.active]
  · rw [numbering, numVars, widens.names active, widens.numVars, Nat.add_sub_cancel_left]

/-- A clause is stored after the variables that it needs came. -/
theorem Widens.moves_stores {middle : Simplifier} {literals : List Literal}
    (widens : before.Widens count middle)
    (present : ∀ literal ∈ literals, 0 < literal.var ∧ literal.var ≤ middle.numVars)
    (stores : middle.engine.Stores literals after.engine)
    (numbering : after.numbering = middle.numbering) : Moves before [literals] [] after := by
  have moves := widens.moves
  have overVars : OverVars literals := fun literal member => (present literal member).1
  have numVars : after.numVars = middle.numVars := stores.flags.numVars
  exact {
    numVars := numVars ▸ moves.numVars
    settings := stores.settings.trans moves.settings
    removed := by
      intro name gone
      rw [stores.flags.removed] at gone
      exact moves.removed name gone
    records := stores.records.trans moves.records
    within := by simp
    unprotected := by simp
    present := List.forall_mem_singleton.2 (numVars ▸ present)
    appears := by
      rintro name ⟨stored, member, literal, inside, rfl⟩
      rcases stores.receives.mem_formula member with old | part
      · exact (moves.appears _ ⟨stored, old, literal, inside, rfl⟩).imp_right (by simp)
      · exact .inr ⟨_, List.mem_cons_self, literal, part inside, rfl⟩
    renumbers := widens.renumbers_of_same numbering numVars
    forth := fun values holds satisfied => (stores.receives.holds_iff overVars).2
      ⟨moves.forth values holds (by simp), satisfied _ List.mem_cons_self⟩
    back := fun values holds => moves.back values ((stores.receives.holds_iff overVars).1 holds).1
    stored := fun _ values holds =>
      List.forall_mem_singleton.2 ((stores.receives.holds_iff overVars).1 holds).2
    closed := fun closed => stores.unsat.trans (moves.closed closed)
    refuted := fun closed => .inl (widens.unsat ▸ stores.unsat ▸ closed) }

/-- A clause that no model satisfies refutes the formula. -/
theorem Widens.moves_refute {middle : Simplifier} {literals : List Literal}
    {proof : Option (Array ProofStep)} (widens : before.Widens count middle)
    (present : ∀ literal ∈ literals, 0 < literal.var ∧ literal.var ≤ middle.numVars)
    (noModel : ∀ values, middle.engine.picture.Holds values → ¬ ClauseHolds values literals)
    (same : after.engine = { middle.engine with unsat := true, proof := proof })
    (numbering : after.numbering = middle.numbering) : Moves before [literals] [] after := by
  have moves := widens.moves
  have numVars : after.numVars = middle.numVars := by
    unfold Simplifier.numVars
    rw [same]
    rfl
  have holds : ∀ values, after.engine.picture.Holds values ↔
      middle.engine.picture.Holds values := by
    intro values
    rw [same]
    exact Picture.holds_of_same rfl rfl
  exact {
    numVars := numVars ▸ moves.numVars
    settings := by
      rw [same]
      exact moves.settings
    removed := by
      rw [same]
      exact moves.removed
    records := by
      rw [same]
      exact moves.records
    within := by simp
    unprotected := by simp
    present := List.forall_mem_singleton.2 (numVars ▸ present)
    appears := by
      rw [same]
      exact fun name appears => (moves.appears name appears).imp_right (by simp)
    renumbers := widens.renumbers_of_same numbering numVars
    forth := fun values isModel _ => (holds values).2 (moves.forth values isModel (by simp))
    back := fun values isModel => moves.back values ((holds values).1 isModel)
    stored := by
      rw [same]
      nofun
    closed := by
      rw [same]
      exact fun _ => rfl
    refuted := fun _ => .inr fun values isModel satisfied =>
      noModel values (moves.forth values isModel (by simp)) (satisfied _ List.mem_cons_self) }

/-- A clause is taken in, or refused. -/
theorem Adds.moves {clause : List Int} {answer : Option Error} (adds : before.Adds clause answer after)
    (standing : before.Standing records) : after.Standing records ∧
      after.engine.trail.Frozen = before.engine.trail.Frozen ∧
      Moves before (if answer.all Error.isUnsat then [clause.map Literal.ofInt] else []) []
        after := by
  cases adds with
  | @stored count middle _ widens present stores numbering =>
    have inMiddle : ∀ literal ∈ clause.map Literal.ofInt,
        @Picture.Present .all middle.engine.picture literal.var := by
      intro literal member
      obtain ⟨positive, inRange, kept⟩ := present literal member
      exact ⟨positive, inRange, .inl kept, trivial⟩
    refine ⟨(widens.standing standing).stores inMiddle stores numbering,
      stores.flags.frozen.trans widens.frozen, ?_⟩
    rw [Option.all_none, if_pos rfl]
    refine widens.moves_stores (fun literal member => ?_) stores numbering
    obtain ⟨positive, inRange, _⟩ := present literal member
    exact ⟨positive, inRange⟩
  | @refuted count middle _ cause widens isUnsat present noModel engine numbering =>
    obtain ⟨proof, _, same⟩ := engine
    refine ⟨(widens.standing standing).refute same numbering, ?_, ?_⟩
    · rw [same]
      exact widens.frozen
    · have taken : (some cause).all Error.isUnsat = true := isUnsat
      rw [if_pos taken]
      exact widens.moves_refute present noModel same numbering
  | refused widens notUnsat =>
    refine ⟨widens.standing standing, widens.frozen, ?_⟩
    simp only [Option.all_some, notUnsat, Bool.false_eq_true, if_false]
    exact widens.moves

/-- Adding a clause neither starts a numbering nor removes a variable. -/
theorem Adds.calm {clause : List Int} {answer : Option Error}
    (adds : before.Adds clause answer after) :
    after.numbering.isActive = before.numbering.isActive ∧
      after.engine.trail.Removed = before.engine.trail.Removed := by
  cases adds with
  | stored widens present stores numbering =>
    exact ⟨numbering ▸ widens.active, stores.flags.removed.trans widens.removed⟩
  | refuted widens isUnsat present noModel engine numbering =>
    obtain ⟨proof, _, same⟩ := engine
    refine ⟨numbering ▸ widens.active, ?_⟩
    rw [same]
    exact widens.removed
  | refused widens notUnsat => exact ⟨widens.active, widens.removed⟩

/-! ## Protection -/

/-- Protection is switched. -/
theorem Switches.moves {name : Nat} {on : Bool} {trail : Trail}
    (switches : simplifier.engine.trail.Switches name on trail)
    (standing : simplifier.Standing records) :
    Standing { simplifier with engine := { simplifier.engine with trail := trail } } records ∧
      Moves simplifier [] []
        { simplifier with engine := { simplifier.engine with trail := trail } } := by
  have size := switches.size
  have numVars : trail.numVars = simplifier.engine.trail.numVars := by
    unfold Trail.numVars
    rw [size]
  refine ⟨⟨?_, fun isOpen => ?_, standing.irredundant, standing.stack, ?_⟩, ?_⟩
  · have sane := standing.sane
    refine ⟨⟨?_, switches.sound sane.trail, ?_⟩, ?_, sane.intact, switches.accounts sane.accounts,
      sane.clean⟩
    · change Filed (2 * trail.vars.size) simplifier.engine.index simplifier.engine.arena
      rw [size]
      exact sane.toFiled
    · change ∀ literal ∈ trail.literals.toList.drop simplifier.engine.applied, literal ∈ trail.facts
      rw [switches.literals, switches.facts]
      exact sane.due
    · exact sane.formed.of_same rfl switches.facts numVars.ge switches.removed
  · obtain ⟨orderly, settles⟩ := standing.settled isOpen
    refine ⟨?_, ?_⟩
    · change trail.facts = trail.literals.toList
      rw [switches.facts, switches.literals]
      exact orderly
    · refine ⟨?_, ?_⟩
      · change _ ≤ trail.facts.length
        rw [switches.facts]
        exact settles.inTrail
      · change ∀ literal ∈ trail.facts.take _, _
        rw [switches.facts]
        exact settles.unmentioned
  · change _ → _ ∧ ∀ name ∈ _, 0 < name ∧ name ≤ trail.numVars
    rw [numVars]
    exact standing.numbered
  · exact .of_same numVars.ge rfl switches.removed rfl rfl switches.facts
      (.of_same rfl numVars) rfl

/-! ## Runs -/

/-- Steps move a simplifier. What the proof was told does not matter. -/
theorem exists_moves_of_steps (standing : before.Standing records)
    {log : Option (List ProofStep)}
    (steps : @Steps (.within before.engine.picture.Appears) .removal before.engine.picture
      { after.engine.picture with log := log })
    (settings : after.engine.settings = before.engine.settings)
    (renumbers : before.Renumbers after)
    (closed : before.engine.unsat = true → after.engine.unsat = true)
    (refuted : after.engine.unsat = true → before.engine.unsat = true ∨
      ∀ values, ¬ before.engine.picture.Holds values) :
    ∃ more, Moves before [] more after := by
  let _ : Realm := .within before.engine.picture.Appears
  have wellFormed := standing.sane.formed.within id fun _ appears => appears
  have numVars : after.numVars = before.numVars := Steps.numVars_eq steps
  obtain ⟨more, pushed, fits, free, back⟩ := Steps.exists_unwind steps
  refine ⟨more, ?_⟩
  constructor
  case numVars => exact numVars.ge
  case settings => exact settings
  case removed => exact fun name gone => Steps.removed_cases steps gone
  case records => exact pushed
  case within =>
    intro record member literal inside
    rw [numVars]
    exact fits record member literal inside
  case unprotected => exact free
  case present => simp
  case appears =>
    exact fun name appears => .inl ((Steps.wellFormed steps wellFormed).has_of_appears appears)
  case renumbers => exact renumbers
  case forth => exact fun values holds _ => Steps.holds steps wellFormed holds
  case back => exact fun values holds => back standing.irredundant values holds
  case stored => simp
  case closed => exact closed
  case refuted => exact fun now => (refuted now).imp_right fun none values holds _ => none values holds

/-- A run of a standing simplifier. -/
theorem run_moves {inprocessing : Bool} (standing : simplifier.Standing records)
    {failed : Error → Simplifier → Prop} :
    (run inprocessing).Ends simplifier (fun status after => status = verdict after.engine ∧
      after.engine.trail.Frozen = simplifier.engine.trail.Frozen ∧
      after.numVars = simplifier.numVars ∧
      ∃ more, after.Standing (records ++ more) ∧ Moves simplifier [] more after) failed := by
  let _ : Realm := .within simplifier.engine.picture.Appears
  cases closed : simplifier.engine.unsat with
  | true =>
    refine .of_done (run_of_closed closed) ⟨?_, rfl, rfl, [], ?_, ?_⟩
    · simp [verdict, closed]
    · rw [List.append_nil]
      exact ⟨standing.sane, standing.settled, standing.irredundant, standing.stack,
        standing.numbered⟩
    · exact .of_same (Nat.le_refl _) rfl rfl rfl rfl rfl (.of_same rfl rfl) rfl
  | false =>
    have fit := standing.fit closed
    have wellFormed := standing.sane.formed.within id fun _ appears => appears
    refine (run_ends fit).imp ?_ fun _ _ impossible => impossible.elim
    rintro status after ⟨isVerdict, ⟨leads, numbering⟩ | ⟨refutes, numbering⟩⟩
    · have fitAfter := leads.fit fit
      have numVars : after.numVars = simplifier.numVars := Steps.numVars_eq leads.steps
      have renumbers : simplifier.Renumbers after := by
        rcases numbering with same | ⟨wanted, inactive, fits⟩
        · exact .of_same same numVars
        · exact .built wanted inactive fits
      obtain ⟨more, moves⟩ := @exists_moves_of_steps simplifier after records standing
        after.engine.picture.log leads.steps leads.settings renumbers
        (fun wrong => leads.unsat.trans wrong) fun now => .inl (leads.unsat ▸ now)
      refine ⟨isVerdict, Steps.frozen_eq leads.steps, numVars, more, ⟨fitAfter.toHealthy.sane id,
        fun _ => fitAfter.settled, Steps.irredundant leads.steps standing.irredundant, ?_, ?_⟩, moves⟩
      · rw [moves.records, standing.stack, Reconstruction.pushAll_append]
      · intro active
        rcases numbering with same | ⟨_, _, fits⟩
        · rw [same] at active ⊢
          rw [numVars]
          exact standing.numbered active
        · exact ⟨fits.distinct, fits.inRange⟩
    · obtain ⟨log, reached⟩ := refutes.reached
      have noModel : ∀ values, ¬ simplifier.engine.picture.Holds values := by
        intro values holds
        obtain ⟨picture, steps, refuted, _⟩ := refutes.refuted
        have further := Steps.holds steps wellFormed holds
        obtain ⟨_, member, _⟩ := refuted.clauseHolds (Steps.wellFormed steps wellFormed).overVars
          further (List.forall_mem_nil _)
        cases member
      have numVars : after.numVars = simplifier.numVars := Steps.numVars_eq reached
      obtain ⟨more, moves⟩ := exists_moves_of_steps standing reached refutes.goes.settings
        (.of_same numbering numVars) (fun _ => refutes.unsat) fun _ => .inr noModel
      refine ⟨isVerdict, Steps.frozen_eq reached, numVars, more, ⟨(refutes.healthy fit.toHealthy).sane id,
        fun isOpen => ?_, Steps.irredundant reached standing.irredundant, ?_, ?_⟩, moves⟩
      · rw [refutes.unsat] at isOpen
        cases isOpen
      · rw [moves.records, standing.stack, Reconstruction.pushAll_append]
      · rw [numbering, numVars]
        exact standing.numbered

end Simplifier

end CnfSimplifier
