import CnfSimplifier.Proofs.Standing

/-!
# Histories of calls

A history starts from the simplifier of a formula and makes one call after another.
Every call is kept with the simplifier it was made on and with its answer, also one
that was refused. A *course* says of every call how it moved the simplifier, and what
holds of all histories is proved along the course: models of everything that was
given stay models, models of what is left come back with the help of the records,
and variables that were protected all the time are spared.
-/
namespace CnfSimplifier

/-- The greatest variable that a formula may have: the next one has the separator
for a literal. -/
def Literal.maxVar : Nat := 2 ^ 30 - 2

theorem Literal.ne_separator_of_le_maxVar {literal : Literal} (small : literal.var ≤ maxVar) :
    literal ≠ separator := by
  rintro rfl
  exact absurd small (by decide)

/-- The value of a computation that is done. -/
def Outcome.value? {σ α : Type} : Outcome σ α → Option α
  | .done value _ => some value
  | _ => none

namespace Simplifier

variable {entry : Entry} {formula : List (List Int)}

/-- What can be asked of a simplifier. -/
inductive Call where
  | newVar
  | addClause (clause : List Int)
  | freeze (name : Nat)
  | unfreeze (name : Nat)
  /-- Switch the request to stop early on or off. -/
  | interrupt (on : Bool)
  /-- Start a new proof, or stop keeping one. -/
  | proof (on : Bool)
  | run (inprocessing : Bool)
deriving DecidableEq

/-- Make a call; a run answers with a status. -/
def Call.perform : Call → Run Simplifier (Option Status)
  | .newVar => do
    let _ ← Simplifier.newVar
    return none
  | .addClause clause => do
    Simplifier.addClause clause
    return none
  | .freeze name => do
    Simplifier.freeze name
    return none
  | .unfreeze name => do
    Simplifier.unfreeze name
    return none
  | .interrupt on => do
    (modify fun engine => { engine with interrupted := on } : Run Engine Unit)
    return none
  | .proof on => do
    (modify fun engine => { engine with proof := if on then some #[] else none } : Run Engine Unit)
    return none
  | .run inprocessing => do
    let status ← Simplifier.run inprocessing
    return some status

def Call.isRun : Call → Bool
  | .run _ => true
  | _ => false

/-- A call that was made. -/
structure Entry where
  before : Simplifier
  call : Call
  answer : Except Error (Option Status)

/-- The clause that a call added to the formula, if any: it was accepted, or it
refuted the formula. -/
def Entry.added (entry : Entry) : List (List Int) :=
  match entry.call, entry.answer with
  | .addClause clause, .ok _ => [clause]
  | .addClause clause, .error cause => if cause.isUnsat then [clause] else []
  | _, _ => []

/-- The status that a run answered with. -/
def Entry.status? (entry : Entry) : Option Status :=
  match entry.answer with
  | .ok status => status
  | .error _ => none

/-- The calls that lead from one simplifier to another, the last one first. -/
inductive History (start : Simplifier) : List Entry → Simplifier → Prop
  | nil : History start [] start
  | made {entries : List Entry} {before after : Simplifier} (call : Call)
    {answer : Except Error (Option Status)} (earlier : History start entries before)
    (ended : call.perform.attempt before = .done answer after) :
    History start (⟨before, call, answer⟩ :: entries) after

/-- Make calls one after another. -/
def play (start : Simplifier) : List Call → Option (List Entry × Simplifier)
  | [] => some ([], start)
  | call :: earlier => do
    let (entries, before) ← play start earlier
    match call.perform.attempt before with
    | .done answer after => return (⟨before, call, answer⟩ :: entries, after)
    | _ => none

/-- A trial of some calls is a history. -/
theorem history_of_play {start final : Simplifier} {calls : List Call} {entries : List Entry}
    (played : play start calls = some (entries, final)) : History start entries final := by
  induction calls generalizing entries final with
  | nil =>
    cases played
    exact .nil
  | cons call earlier ih =>
    obtain ⟨⟨_, before⟩, first, later⟩ := Option.bind_eq_some_iff.1 played
    dsimp only at later
    split at later
    next answer after ended =>
      cases later
      exact .made call (ih first) ended
    next => cases later

/-- Make calls on a simplifier that was set up, and look at what comes out. -/
def trial (setUp : Outcome Simplifier Unit) (calls : List Call)
    (check : List Entry → Simplifier → Bool) : Bool :=
  match setUp with
  | .done _ start => (play start calls).any fun played => check played.1 played.2
  | _ => false

/-- A trial shows a history. -/
theorem exists_of_trial (setUp : Outcome Simplifier Unit) (calls : List Call)
    (check : List Entry → Simplifier → Bool) (tried : trial setUp calls check = true) :
    ∃ start entries final, setUp = .done () start ∧ History start entries final ∧
      check entries final = true := by
  unfold trial at tried
  split at tried
  next _ start =>
    cases played : play start calls with
    | none =>
      rw [played] at tried
      cases tried
    | some result =>
      rw [played] at tried
      exact ⟨start, result.1, result.2, rfl, history_of_play played, tried⟩
  next => cases tried

/-! ## Protection over time -/

instance (trail : Trail) (name : Nat) : Decidable (trail.Frozen name) :=
  decidable_of_iff ((trail.flags? name).any VarFlags.frozen = true) <| by
    unfold Trail.Frozen
    cases trail.flags? name <;> simp

/-- Some run was made. -/
def hasRun (entries : List Entry) : Bool := entries.any fun entry => entry.call.isRun

/-- The calls from the first run on. -/
def sinceFirstRun : List Entry → List Entry
  | [] => []
  | entry :: earlier =>
    if hasRun (entry :: earlier) then entry :: sinceFirstRun earlier else []

/-- A variable is protected and was so before the first run and before every call
since. -/
def ProtectedSince (name : Nat) (entries : List Entry) (now : Simplifier) : Prop :=
  now.engine.trail.Frozen name ∧
    ∀ entry ∈ sinceFirstRun entries, entry.before.engine.trail.Frozen name

instance (name : Nat) (entries : List Entry) (now : Simplifier) :
    Decidable (ProtectedSince name entries now) :=
  inferInstanceAs (Decidable (_ ∧ _))

/-- What is protected since the first run was so earlier. -/
theorem ProtectedSince.earlier {name : Nat} {entries : List Entry} {now : Simplifier}
    (since : ProtectedSince name (entry :: entries) now) (run : hasRun (entry :: entries) = true) :
    ProtectedSince name entries entry.before := by
  obtain ⟨_, before⟩ := since
  unfold sinceFirstRun at before
  rw [if_pos run] at before
  exact List.forall_mem_cons.1 before

/-- After the first run clauses were added only over variables that were protected
all the time. -/
def AddsOverProtected (entries : List Entry) : Prop :=
  ∀ later entry earlier, entries = later ++ entry :: earlier → hasRun earlier = true →
    ∀ clause ∈ entry.added, ∀ literal ∈ clause, ProtectedSince literal.natAbs earlier entry.before

theorem AddsOverProtected.earlier {entries : List Entry}
    (guarded : AddsOverProtected (entry :: entries)) : AddsOverProtected entries :=
  fun later other earlier split => guarded (entry :: later) other earlier (congrArg (entry :: ·) split)

/-- One more call adds over protected variables or not. -/
theorem addsOverProtected_cons {entries : List Entry} :
    AddsOverProtected (entry :: entries) ↔ AddsOverProtected entries ∧
      (hasRun entries = true → ∀ clause ∈ entry.added, ∀ literal ∈ clause,
        ProtectedSince literal.natAbs entries entry.before) := by
  refine ⟨fun guarded => ⟨guarded.earlier, guarded [] entry entries rfl⟩, ?_⟩
  rintro ⟨guarded, now⟩ later other earlier split
  cases later with
  | nil =>
    cases split
    exact now
  | cons _ rest =>
    cases split
    exact guarded rest other earlier rfl

instance : (entries : List Entry) → Decidable (AddsOverProtected entries)
  | [] => .isTrue fun later entry earlier split => absurd split (by simp)
  | _ :: entries =>
    let _ : Decidable (AddsOverProtected entries) := instDecidableAddsOverProtected entries
    decidable_of_iff _ addsOverProtected_cons.symm

section BeforeTheFirstRun

/-! Calls before the first run do not matter to what happened since. -/

variable {base : List Entry}

theorem hasRun_append (entries : List Entry) (unrun : hasRun base = false) :
    hasRun (entries ++ base) = hasRun entries := by
  unfold hasRun at *
  rw [List.any_append, unrun, Bool.or_false]

/-- What was done before any run is not counted. -/
theorem sinceFirstRun_append (entries : List Entry) (unrun : hasRun base = false) :
    sinceFirstRun (entries ++ base) = sinceFirstRun entries := by
  induction entries with
  | nil =>
    cases base with
    | nil => rfl
    | cons entry earlier =>
      change sinceFirstRun (entry :: earlier) = []
      unfold sinceFirstRun
      rw [unrun, if_neg Bool.false_ne_true]
  | cons entry earlier ih =>
    have same := hasRun_append (entry :: earlier) unrun
    rw [List.cons_append] at same ⊢
    unfold sinceFirstRun
    rw [same, ih]

theorem protectedSince_append {name : Nat} {entries : List Entry} {now : Simplifier}
    (unrun : hasRun base = false) :
    ProtectedSince name (entries ++ base) now ↔ ProtectedSince name entries now := by
  unfold ProtectedSince
  rw [sinceFirstRun_append entries unrun]

/-- A call after a run is none of the calls before it. -/
theorem mem_of_split {entries later earlier : List Entry} {entry : Entry}
    (split : entries ++ base = later ++ entry :: earlier) (unrun : hasRun base = false)
    (run : hasRun earlier = true) : entry ∈ entries := by
  have outside : ∀ front, base ≠ front ++ entry :: earlier := by
    rintro front rfl
    unfold hasRun at unrun run
    rw [List.any_append, List.any_cons, run, Bool.or_true, Bool.or_true] at unrun
    cases unrun
  rcases List.append_eq_append_iff.1 split with ⟨front, _, same⟩ | ⟨rest, rfl, same⟩
  · exact absurd same (outside front)
  · cases rest with
    | nil => exact absurd same.symm (outside [])
    | cons first _ =>
      cases same
      simp

theorem AddsOverProtected.append {entries : List Entry} (guarded : AddsOverProtected entries)
    (unrun : hasRun base = false) : AddsOverProtected (entries ++ base) := by
  induction entries with
  | nil =>
    rintro later entry earlier split run
    exact absurd (mem_of_split split unrun run) List.not_mem_nil
  | cons entry earlier ih =>
    obtain ⟨before, now⟩ := addsOverProtected_cons.1 guarded
    rw [List.cons_append]
    refine addsOverProtected_cons.2 ⟨ih before, fun run clause isAdded literal inside => ?_⟩
    rw [hasRun_append earlier unrun] at run
    exact (protectedSince_append unrun).2 (now run clause isAdded literal inside)

end BeforeTheFirstRun

/-! ## Courses -/

/-- How a call moved the simplifier. -/
structure Entry.Moved (entry : Entry) (records more : List Record) (after : Simplifier) :
    Prop where
  standing : after.Standing (records ++ more)
  moves : Moves entry.before (entry.added.map (List.map Literal.ofInt)) more after
  /-- Only runs push records, number variables and remove some. -/
  calm : entry.call.isRun = false → more = [] ∧
    after.numbering.isActive = entry.before.numbering.isActive ∧
    after.engine.trail.Removed = entry.before.engine.trail.Removed
  status : ∀ status, entry.status? = some status → status = verdict after.engine

/-- A call that leaves the formula moves the simplifier as it should. -/
theorem Entry.Moved.of_quiet {records : List Record} {after : Simplifier}
    (nothing : entry.added = []) (silent : entry.status? = none) (standing : after.Standing records)
    (moves : Moves entry.before [] [] after)
    (active : after.numbering.isActive = entry.before.numbering.isActive)
    (removed : after.engine.trail.Removed = entry.before.engine.trail.Removed) :
    entry.Moved records [] after where
  standing := by rwa [List.append_nil]
  moves := nothing ▸ moves
  calm _ := ⟨rfl, active, removed⟩
  status status said := by
    rw [silent] at said
    cases said

variable {before after start final : Simplifier} {records : List Record} {entries : List Entry}

/-- Every call moves a standing simplifier, refused or not. -/
theorem Call.perform_moves (call : Call) (standing : before.Standing records) :
    call.perform.attempt.Ends before (fun answer after =>
      ∃ more, Entry.Moved ⟨before, call, answer⟩ records more after) fun _ _ => False := by
  have nonempty := standing.sane.trail.nonempty
  have small : before.numVars < 2 ^ 31 := standing.sane.trail.numVars_lt
  -- A refused call that left everything as it was.
  have unmoved : ∀ cause, Entry.added ⟨before, call, .error cause⟩ = [] →
      ∃ more, Entry.Moved ⟨before, call, .error cause⟩ records more before :=
    fun cause nothing => ⟨[], .of_quiet nothing rfl standing
      (.of_same (Nat.le_refl _) rfl rfl rfl rfl rfl (.of_same rfl rfl) rfl) rfl rfl⟩
  refine .attempt ?_
  cases call with
  | newVar =>
    refine (newVar_widens nonempty).bind fun _ after widens => .pure ⟨[], ?_⟩
    exact .of_quiet rfl rfl (widens.standing standing) widens.moves widens.active
      widens.removed
  | addClause clause =>
    have adding : ∀ answer given after, before.Adds clause given after →
        Entry.added ⟨before, .addClause clause, answer⟩ =
          (if given.all Error.isUnsat then [clause] else []) →
        Entry.status? ⟨before, .addClause clause, answer⟩ = none →
        ∃ more, Entry.Moved ⟨before, .addClause clause, answer⟩ records more after := by
      intro answer given after adds isAdded silent
      obtain ⟨active, removed⟩ := adds.calm
      obtain ⟨further, _, moves⟩ := adds.moves standing
      refine ⟨[], by rwa [List.append_nil], ?_, fun _ => ⟨rfl, active, removed⟩,
        fun status said => absurd (silent.symm.trans said) nofun⟩
      rw [isAdded, apply_ite (List.map (List.map Literal.ofInt))]
      exact moves
    refine .bind (addClause_ends clause standing.sane.toInStep |>.imp (fun _ _ adds => adds)
      fun cause after adds => ?_) fun _ after adds => ?_
    · exact adding _ _ after adds rfl rfl
    · exact .pure (adding _ _ after adds rfl rfl)
  | freeze name =>
    refine .bind ((freeze_ends small).imp (fun _ _ held => held) fun cause after same => ?_) ?_
    · subst same
      exact unmoved cause rfl
    · rintro _ _ ⟨_, _, _, trail, switches, rfl⟩
      obtain ⟨further, moves⟩ := Switches.moves switches standing
      exact .pure ⟨[], .of_quiet rfl rfl further moves rfl switches.removed⟩
  | unfreeze name =>
    refine .bind (unfreeze_ends.imp (fun _ _ held => held) fun cause after same => ?_) ?_
    · subst same
      exact unmoved cause rfl
    · rintro _ _ ⟨trail, switches, rfl⟩
      obtain ⟨further, moves⟩ := Switches.moves switches standing
      exact .pure ⟨[], .of_quiet rfl rfl further moves rfl switches.removed⟩
  | interrupt on =>
    refine .step rfl (.pure ⟨[], .of_quiet rfl rfl ?_ ?_ rfl rfl⟩)
    · exact standing.of_same rfl rfl rfl rfl rfl rfl rfl rfl rfl
    · exact .of_same (Nat.le_refl _) rfl rfl rfl rfl rfl (.of_same rfl rfl) rfl
  | proof on =>
    refine .step rfl (.pure ⟨[], .of_quiet rfl rfl ?_ ?_ rfl rfl⟩)
    · exact standing.of_same rfl rfl rfl rfl rfl rfl rfl rfl rfl
    · exact .of_same (Nat.le_refl _) rfl rfl rfl rfl rfl (.of_same rfl rfl) rfl
  | run inprocessing =>
    refine (run_moves standing).bind ?_
    rintro status after ⟨isVerdict, _, _, more, further, moves⟩
    refine .pure ⟨more, further, moves, nofun, fun other said => ?_⟩
    cases said
    exact isVerdict

/-- A history with the records that its calls pushed. -/
inductive Course (start : Simplifier) : List Entry → List Record → Simplifier → Prop
  | nil (standing : start.Standing []) : Course start [] [] start
  | cons {entry : Entry} {entries : List Entry} {records more : List Record} {after : Simplifier}
    (earlier : Course start entries records entry.before)
    (made : entry.call.perform.attempt entry.before = .done entry.answer after)
    (moved : entry.Moved records more after) :
    Course start (entry :: entries) (records ++ more) after

theorem Course.standing (course : Course start entries records final) :
    final.Standing records := by
  cases course with
  | nil standing => exact standing
  | cons earlier made moved => exact moved.standing

/-- A history goes on with a course. -/
theorem Course.exists_append {blank : Simplifier} {base : List Entry}
    (course : Course blank base records start) (history : History start entries final) :
    ∃ more, Course blank (entries ++ base) (records ++ more) final := by
  induction history with
  | nil => exact ⟨[], (List.append_nil records).symm ▸ course⟩
  | made call earlier ended ih =>
    obtain ⟨so_far, onward⟩ := ih
    obtain ⟨more, moved⟩ := (Call.perform_moves call onward.standing).done_of_eq ended
    exact ⟨so_far ++ more, List.append_assoc records so_far more ▸ .cons onward ended moved⟩

/-- A course can be followed up to any of its calls. -/
theorem Course.exists_before {later earlier : List Entry}
    (course : Course start (later ++ entry :: earlier) records final) :
    ∃ pushed, Course start earlier pushed entry.before := by
  generalize whole : later ++ entry :: earlier = entries at course
  induction course generalizing later with
  | nil _ => simp at whole
  | cons before _ moved ih =>
    cases later with
    | nil =>
      cases whole
      exact ⟨_, before⟩
    | cons last rest =>
      cases whole
      exact ih rfl

/-! ## What was given -/

/-- The clauses that calls added. -/
def given (entries : List Entry) : List (List Int) := entries.flatMap Entry.added

/-- A variable of a clause that was given. -/
def Mentioned (clauses : List (List Int)) (name : Nat) : Prop :=
  ∃ clause ∈ clauses, ∃ literal ∈ clause, (Literal.ofInt literal).var = name

theorem Mentioned.mono {first second : List (List Int)} {name : Nat}
    (mentioned : Mentioned first name) (more : first ⊆ second) : Mentioned second name := by
  obtain ⟨clause, member, rest⟩ := mentioned
  exact ⟨clause, more member, rest⟩

/-- An assignment satisfies all clauses. -/
def AllHold (values : Assignment) (clauses : List (List Int)) : Prop :=
  ∀ clause ∈ clauses, ClauseHolds values (clause.map Literal.ofInt)

theorem allHold_append {values : Assignment} {first second : List (List Int)} :
    AllHold values (first ++ second) ↔ AllHold values first ∧ AllHold values second :=
  List.forall_mem_append

/-- A simplifier on which nothing has happened. -/
structure Blank (simplifier : Simplifier) : Prop where
  formula : simplifier.engine.picture.formula = ∅
  isOpen : simplifier.engine.unsat = false
  inactive : simplifier.numbering.isActive = false
  removed : ∀ name, ¬ simplifier.engine.trail.Removed name

namespace Course

/-- Only variables that were given appear in the formula. -/
theorem mentioned_of_appears (course : Course start entries records final) (blank : start.Blank)
    {name : Nat} (appears : final.engine.picture.Appears name) : Mentioned (given entries) name := by
  induction course with
  | nil _ =>
    obtain ⟨clause, member, _⟩ := appears
    rw [blank.formula] at member
    exact absurd member (Set.notMem_empty clause)
  | cons earlier _ moved ih =>
    rcases moved.moves.appears name appears with before | ⟨_, member, literal, inside, rfl⟩
    · exact (ih before).mono (List.subset_append_right _ _)
    · obtain ⟨clause, isAdded, rfl⟩ := List.mem_map.1 member
      obtain ⟨value, isValue, rfl⟩ := List.mem_map.1 inside
      exact ⟨clause, List.mem_append_left _ isAdded, value, isValue, rfl⟩

/-- Records are over variables that were given. -/
theorem records_inRange (course : Course start entries records final) (blank : start.Blank) :
    ∀ record ∈ records, ∀ literal ∈ record.literals, 0 < literal.var ∧
      literal.var ≤ final.numVars ∧ Mentioned (given entries) literal.var := by
  induction course with
  | nil _ => simp
  | cons earlier _ moved ih =>
    refine List.forall_mem_append.2 ⟨fun record member literal inside => ?_,
      fun record member literal inside => ?_⟩
    · obtain ⟨positive, small, mentioned⟩ := ih record member literal inside
      exact ⟨positive, small.trans moved.moves.numVars,
        mentioned.mono (List.subset_append_right _ _)⟩
    · obtain ⟨positive, small, appears⟩ := moved.moves.within record member literal inside
      exact ⟨positive, small, (earlier.mentioned_of_appears blank appears).mono
        (List.subset_append_right _ _)⟩

/-- What was given is over variables that are there. -/
theorem given_inRange (course : Course start entries records final) :
    ∀ clause ∈ given entries, ∀ literal ∈ clause, 0 < (Literal.ofInt literal).var ∧
      (Literal.ofInt literal).var ≤ final.numVars := by
  induction course with
  | nil _ => simp [given]
  | cons earlier _ moved ih =>
    refine List.forall_mem_append.2 ⟨fun clause isAdded literal inside => ?_,
      fun clause member literal inside => ?_⟩
    · exact moved.moves.present _ (List.mem_map_of_mem isAdded) _ (List.mem_map_of_mem inside)
    · obtain ⟨positive, small⟩ := ih clause member literal inside
      exact ⟨positive, small.trans moved.moves.numVars⟩

/-- Where no numbering is asked for there is none. -/
theorem inactive (course : Course start entries records final) (blank : start.Blank)
    (plain : start.engine.settings.renumbering = false) :
    final.numbering.isActive = false ∧ final.engine.settings.renumbering = false := by
  induction course with
  | nil _ => exact ⟨blank.inactive, plain⟩
  | cons earlier _ moved ih =>
    obtain ⟨inactive, unwanted⟩ := ih
    refine ⟨?_, (congrArg Settings.renumbering moved.moves.settings).trans unwanted⟩
    rcases moved.moves.renumbers with ⟨active, _⟩ | ⟨wanted, _, _⟩
    · exact active.trans inactive
    · exact absurd (wanted.symm.trans unwanted) (by decide)

/-- Before the first run there are no records, no numbering and no removed
variables. -/
theorem calm (course : Course start entries records final) (blank : start.Blank)
    (unrun : hasRun entries = false) : records = [] ∧ final.numbering.isActive = false ∧
      ∀ name, ¬ final.engine.trail.Removed name := by
  induction course with
  | nil _ => exact ⟨rfl, blank.inactive, blank.removed⟩
  | cons earlier _ moved ih =>
    unfold hasRun at unrun
    rw [List.any_cons, Bool.or_eq_false_iff] at unrun
    obtain ⟨rfl, inactive, removed⟩ := ih unrun.2
    obtain ⟨rfl, active, same⟩ := moved.calm unrun.1
    exact ⟨rfl, active.trans inactive, fun name => same ▸ removed name⟩

/-- What was protected all the time was never removed, no record chooses it, and it
has a number. -/
theorem spares (course : Course start entries records final) (blank : start.Blank)
    {name : Nat} (positive : 0 < name) (since : ProtectedSince name entries final) :
    (∀ record ∈ records, record.chosen.var ≠ name) ∧ final.Numbered name ∧
      ¬ final.engine.trail.Removed name := by
  induction course with
  | nil _ =>
    exact ⟨by simp, fun active => absurd (active.symm.trans blank.inactive) (by decide),
      blank.removed name⟩
  | @cons entry entries records more after earlier made moved ih =>
    cases run : hasRun (entry :: entries) with
    | false =>
      obtain ⟨none, inactive, removed⟩ := (Course.cons earlier made moved).calm blank run
      rw [none]
      exact ⟨by simp, fun active => absurd (active.symm.trans inactive) (by decide), removed name⟩
    | true =>
      have before := since.earlier run
      obtain ⟨unchosen, numbered, present⟩ := ih before
      refine ⟨List.forall_mem_append.2 ⟨unchosen, fun record member same => ?_⟩,
        moved.moves.renumbers.numbered positive (.inl numbered) (.inr since.1), fun gone => ?_⟩
      · exact moved.moves.unprotected record member (same ▸ before.1)
      · exact (moved.moves.removed name gone).elim present fun open_ => open_ before.1

/-- Models come back, as long as no clause that was added mentions a variable that a
record had chosen. -/
theorem allHold_unwind (course : Course start entries records final)
    (spared : ∀ later entry earlier pushed, entries = later ++ entry :: earlier →
      Course start earlier pushed entry.before → ∀ clause ∈ entry.added, ∀ literal ∈ clause,
        ∀ record ∈ pushed, record.chosen.var ≠ (Literal.ofInt literal).var)
    (isOpen : final.engine.unsat = false) {values : Assignment}
    (holds : final.engine.picture.Holds values) :
    AllHold (unwind records values) (given entries) := by
  induction course generalizing values with
  | nil _ => exact fun clause member => absurd member List.not_mem_nil
  | @cons entry entries records more after earlier made moved ih =>
    have wasOpen : entry.before.engine.unsat = false := by
      refine Bool.eq_false_iff.2 fun closed => ?_
      rw [moved.moves.closed closed] at isOpen
      cases isOpen
    have sparedBefore := fun later other before pushed split =>
      spared (entry :: later) other before pushed (congrArg (entry :: ·) split)
    have before := ih sparedBefore wasOpen (moved.moves.back values holds)
    rw [unwind_append]
    refine allHold_append.2 ⟨fun clause isAdded => ?_, before⟩
    have stored := moved.moves.stored isOpen values holds _ (List.mem_map_of_mem isAdded)
    -- Only runs push records, and they add no clauses.
    have notRun : entry.call.isRun = false := by
      cases isCall : entry.call with
      | run _ => simp [Entry.added, isCall] at isAdded
      | _ => rfl
    obtain ⟨rfl, _⟩ := moved.calm notRun
    refine (clauseHolds_unwind fun literal inside record member => ?_).2 stored
    obtain ⟨value, isValue, rfl⟩ := List.mem_map.1 inside
    exact spared [] entry entries records rfl earlier clause isAdded value isValue record member

/-- The formula stays covered, as long as every clause that was added is over numbered
variables or new ones. -/
theorem covered (course : Course start entries records final) (blank : start.Blank)
    (known : ∀ entry ∈ entries, ∀ clause ∈ entry.added, ∀ literal ∈ clause,
      entry.before.Numbered (Literal.ofInt literal).var ∨
        entry.before.numVars < (Literal.ofInt literal).var) : final.Covered := by
  induction course with
  | nil _ => exact fun _ _ _ active => absurd (active.symm.trans blank.inactive) (by decide)
  | cons earlier made moved ih =>
    obtain ⟨knownNow, knownBefore⟩ := List.forall_mem_cons.1 known
    refine moved.moves.covered (ih knownBefore) (List.forall_mem_map.2 fun clause isAdded => ?_)
    exact List.forall_mem_map.2 (knownNow clause isAdded)

/-- Then all variables of the formula have numbers. -/
theorem numbered_of_appears (course : Course start entries records final) (blank : start.Blank)
    (known : ∀ entry ∈ entries, ∀ clause ∈ entry.added, ∀ literal ∈ clause,
      entry.before.Numbered (Literal.ofInt literal).var ∨
        entry.before.numVars < (Literal.ofInt literal).var)
    {name : Nat} (appears : final.engine.picture.Appears name) : final.Numbered name := by
  let _ : Realm := .all
  obtain ⟨clause, member, literal, inside, rfl⟩ := appears
  have positive := (course.standing.sane.formed.known_of_mem member inside).1
  exact course.covered blank known _ positive ⟨clause, member, literal, inside, rfl⟩

end Course

/-! ## From the formula on -/

/-- A new simplifier is blank. -/
theorem blank_ofVars (settings : Settings) (numVars : Nat) : (ofVars settings numVars).Blank where
  formula := by
    refine Set.eq_empty_of_forall_notMem fun clause member => ?_
    rcases member with stored | ⟨literal, atRoot, _⟩
    · exact absurd stored (Multiset.notMem_zero clause)
    · exact absurd atRoot List.not_mem_nil
  isOpen := rfl
  inactive := rfl
  removed := removed_ofVars numVars

/-- Adding a clause as a call. -/
theorem perform_addClause {clause : List Int} {result : Except Error Unit}
    (ended : (addClause clause).attempt before = .done result after) :
    (Call.addClause clause).perform.attempt before = .done (result.map fun _ => none) after := by
  unfold Run.attempt at *
  cases added : addClause clause before with
  | done value state =>
    have performed : (Call.addClause clause).perform before = .done none state :=
      Run.bind_of_done added
    rw [added] at ended
    rw [performed]
    cases ended
    rfl
  | failed cause state =>
    have performed : (Call.addClause clause).perform before = .failed cause state :=
      Run.bind_of_failed added
    rw [added] at ended
    rw [performed]
    cases ended
    rfl
  | stuck why =>
    rw [added] at ended
    cases ended

/-- Adding clauses one by one is a history in which no run was made. -/
theorem exists_history_of_addClauses {clauses : List (List Int)}
    (added : addClauses clauses before = .done () after) (earlier : History start entries before) :
    ∃ more, History start (more ++ entries) after ∧ hasRun more = false ∧
      (∀ entry ∈ more, ∃ clause, entry.call = .addClause clause) ∧
      (given more).Perm clauses := by
  induction clauses generalizing before entries with
  | nil =>
    cases added
    exact ⟨[], earlier, rfl, by simp, .refl _⟩
  | cons clause rest ih =>
    unfold addClauses at added
    rw [Run.bind_apply] at added
    -- Whatever the answer was, the clause counts, and the rest follows.
    have onward : ∀ result middle, (addClause clause).attempt before = .done result middle →
        Entry.added ⟨before, .addClause clause, result.map fun _ => none⟩ = [clause] →
        addClauses rest middle = .done () after → ∃ more, History start (more ++ entries) after ∧
          hasRun more = false ∧ (∀ entry ∈ more, ∃ clause, entry.call = .addClause clause) ∧
          (given more).Perm (clause :: rest) := by
      intro result middle attempted counts later
      obtain ⟨more, history, unrun, adding, same⟩ :=
        ih later (.made (.addClause clause) earlier (perform_addClause attempted))
      refine ⟨more ++ [_], by rwa [List.append_assoc], ?_, List.forall_mem_append.2 ⟨adding,
        List.forall_mem_singleton.2 ⟨clause, rfl⟩⟩, ?_⟩
      · unfold hasRun at unrun ⊢
        rw [List.any_append, unrun]
        rfl
      · unfold given at same ⊢
        rw [List.flatMap_append, List.flatMap_singleton, counts]
        exact List.perm_append_singleton clause _ |>.trans (same.cons clause)
    cases attempted : (addClause clause).attempt before with
    | done result middle =>
      rw [attempted] at added
      cases result with
      | ok _ => exact onward _ middle attempted rfl added
      | error cause =>
        dsimp only at added
        split at added
        next isUnsat => exact onward _ middle attempted (by simp [Entry.added, Except.map, isUnsat]) added
        next => cases added
    | failed cause middle =>
      rw [attempted] at added
      cases added
    | stuck why =>
      rw [attempted] at added
      cases added

/-- No variable of a formula is greater than its literals say. -/
theorem numVars_ofClauses_le {bound : Nat}
    (small : ∀ clause ∈ formula, ∀ literal ∈ clause, literal.natAbs ≤ bound) :
    (Dimensions.ofClauses formula).numVars ≤ bound := by
  have inClause : ∀ (clause : List Int) (top : Nat), top ≤ bound →
      (∀ literal ∈ clause, literal.natAbs ≤ bound) →
      clause.foldl (fun top literal => max top literal.natAbs) top ≤ bound := by
    intro clause
    induction clause with
    | nil => exact fun top below _ => below
    | cons literal rest ih =>
      intro top below all
      obtain ⟨first, later⟩ := List.forall_mem_cons.1 all
      exact ih _ (max_le below first) later
  suffices all : ∀ (formula : List (List Int)) (top : Nat), top ≤ bound →
      (∀ clause ∈ formula, ∀ literal ∈ clause, literal.natAbs ≤ bound) →
      formula.foldl (fun top clause =>
        clause.foldl (fun top literal => max top literal.natAbs) top) top ≤ bound from
    all formula 0 (Nat.zero_le _) small
  intro formula
  induction formula with
  | nil => exact fun top below _ => below
  | cons clause rest ih =>
    intro top below all
    obtain ⟨first, later⟩ := List.forall_mem_cons.1 all
    exact ih _ (inClause clause top below first) later

/-- Small literals have small variables. -/
theorem numVars_ofClauses_lt
    (small : ∀ clause ∈ formula, ∀ literal ∈ clause, literal.natAbs < 2 ^ 31) :
    (Dimensions.ofClauses formula).numVars < 2 ^ 31 :=
  Nat.lt_of_le_pred (by decide) (numVars_ofClauses_le fun clause member literal inside =>
    Nat.le_pred_of_lt (small clause member literal inside))

/-- The clauses of a formula come in one by one on a blank simplifier. -/
theorem exists_course_of_ofClauses {settings : Settings}
    (made : ofClauses settings formula = .done () start)
    (small : ∀ clause ∈ formula, ∀ literal ∈ clause, literal.natAbs < 2 ^ 31) :
    ∃ blank base, Blank blank ∧ blank.engine.settings = settings ∧ Course blank base [] start ∧
      hasRun base = false ∧ (∀ entry ∈ base, ∃ clause, entry.call = .addClause clause) ∧
      (given base).Perm formula := by
  have fits := numVars_ofClauses_lt small
  have isBlank := blank_ofVars settings (Dimensions.ofClauses formula).numVars
  obtain ⟨base, toStart, unrun, adding, same⟩ := exists_history_of_addClauses made .nil
  rw [List.append_nil] at toStart
  obtain ⟨records, course⟩ :=
    (Course.nil (standing_ofVars settings fits)).exists_append toStart
  rw [List.append_nil, List.nil_append] at course
  obtain ⟨rfl, _⟩ := course.calm isBlank unrun
  exact ⟨_, base, isBlank, rfl, course, unrun, adding, same⟩

/-- A history of a formula is a course from a blank simplifier: the clauses of the
formula come first. -/
theorem History.exists_course {settings : Settings}
    (made : ofClauses settings formula = .done () start) (history : History start entries final)
    (small : ∀ clause ∈ formula, ∀ literal ∈ clause, literal.natAbs < 2 ^ 31) :
    ∃ blank base records, Blank blank ∧ blank.engine.settings = settings ∧
      Course blank (entries ++ base) records final ∧ hasRun base = false ∧
      ∀ clause, clause ∈ given (entries ++ base) ↔ clause ∈ formula ++ given entries := by
  obtain ⟨blank, base, isBlank, sameSettings, begun, unrun, _, same⟩ :=
    exists_course_of_ofClauses made small
  obtain ⟨records, course⟩ := begun.exists_append history
  refine ⟨blank, base, [] ++ records, isBlank, sameSettings, course, unrun, fun clause => ?_⟩
  unfold given at same ⊢
  rw [List.flatMap_append, List.mem_append, List.mem_append, same.mem_iff, or_comm]

end Simplifier

end CnfSimplifier
