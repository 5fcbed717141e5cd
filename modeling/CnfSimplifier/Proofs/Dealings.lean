import CnfSimplifier.Proofs.Exchanges
import CnfSimplifier.Proofs.ModelExtension

/-!
# Calls and exchanges in any order

A *dealing* with a simplifier is a call or an exchange with a solver. However they
follow each other, the simplifier is standing between them, and a variable that was
protected at every run is left alone: it is there, it has its number, no record
chooses it, and the value that a model of the exported formula gives it is the value
that it has in the extended model.
-/
namespace CnfSimplifier

namespace Simplifier

variable {before after start final simplifier : Simplifier} {records : List Record}

/-- What can be done to a simplifier. -/
inductive Dealing where
  | call (call : Call)
  /-- Exchange the formula with a solver, which is given up afterwards. -/
  | exchange (solver : SearchSolver) (inprocessing : Bool)

/-- Work on a simplifier together with a solver that is given up afterwards. -/
def lending {α : Type} (solver : SearchSolver) (body : Run (SearchSolver × Simplifier) α) :
    Run Simplifier α := fun before =>
  match body (solver, before) with
  | .done value (_, after) => .done value after
  | .failed cause (_, after) => .failed cause after
  | .stuck why => .stuck why

/-- Do it; a run answers with a status. -/
def Dealing.perform : Dealing → Run Simplifier (Option Status)
  | .call asked => asked.perform
  | .exchange solver inprocessing => do
    let status ← lending solver (Solver.roundTrip SearchSolver inprocessing)
    return some status

def Dealing.isRun : Dealing → Bool
  | .call asked => asked.isRun
  | .exchange _ _ => true

/-- Something that was done, and the simplifier that it was done to. -/
structure Dealt where
  before : Simplifier
  dealing : Dealing
  answer : Except Error (Option Status)

/-- The dealings that lead from one simplifier to another, the last one first. -/
inductive Dealings (start : Simplifier) : List Dealt → Simplifier → Prop
  | nil : Dealings start [] start
  | made {entries : List Dealt} {before after : Simplifier} (dealing : Dealing)
    {answer : Except Error (Option Status)} (earlier : Dealings start entries before)
    (ended : dealing.perform.attempt before = .done answer after) :
    Dealings start (⟨before, dealing, answer⟩ :: entries) after

/-- Deal with a simplifier in several ways, the last one first. -/
def deal (start : Simplifier) : List Dealing → Option (List Dealt × Simplifier)
  | [] => some ([], start)
  | dealing :: earlier => do
    let (entries, before) ← deal start earlier
    match dealing.perform.attempt before with
    | .done answer after => return (⟨before, dealing, answer⟩ :: entries, after)
    | _ => none

/-- A trial of some calls is a dealing with a simplifier. -/
theorem dealings_of_deal {wanted : List Dealing} {entries : List Dealt}
    (dealt : deal start wanted = some (entries, final)) : Dealings start entries final := by
  induction wanted generalizing entries final with
  | nil =>
    cases dealt
    exact .nil
  | cons dealing earlier ih =>
    simp only [deal, Option.bind_eq_bind, Option.bind_eq_some_iff, Prod.exists] at dealt
    obtain ⟨before, state, sofar, made⟩ := dealt
    split at made
    next answer after ended =>
      cases made
      exact .made dealing (ih sofar) ended
    next => cases made

/-- Deal with a simplifier that was set up, and look at what comes out. -/
def dealTrial (setUp : Outcome Simplifier Unit) (wanted : List Dealing)
    (check : List Dealt → Simplifier → Bool) : Bool :=
  match setUp with
  | .done _ start => (deal start wanted).any fun dealt => check dealt.1 dealt.2
  | _ => false

/-- A trial shows dealings. -/
theorem exists_of_dealTrial (setUp : Outcome Simplifier Unit) (wanted : List Dealing)
    (check : List Dealt → Simplifier → Bool) (tried : dealTrial setUp wanted check = true) :
    ∃ start entries final, setUp = .done () start ∧ Dealings start entries final ∧
      check entries final = true := by
  unfold dealTrial at tried
  split at tried
  next _ start =>
    cases dealt : deal start wanted with
    | none =>
      rw [dealt] at tried
      cases tried
    | some result =>
      rw [dealt] at tried
      exact ⟨start, result.1, result.2, rfl, dealings_of_deal dealt, tried⟩
  next => cases tried

variable {entries : List Dealt}

/-- Lending the simplifier to a solver leaves the other alone. -/
theorem lending_ends {α : Type} {solver : SearchSolver}
    {body : Run (SearchSolver × Simplifier) α} {done : α → Simplifier → Prop}
    {failed : Error → Simplifier → Prop}
    (ends : body.Ends (solver, before) (fun value after => done value after.2)
      fun cause after => failed cause after.2) : (lending solver body).Ends before done failed := by
  unfold Run.Ends lending at *
  cases ended : body (solver, before) <;> simp only [ended] at ends ⊢ <;> exact ends

/-- A run, in an exchange or not, passes the simplifier on. -/
theorem Dealing.run_ends {dealing : Dealing} (isRun : dealing.isRun = true)
    (standing : before.Standing records) : dealing.perform.attempt.Ends before
      (fun _ after => Solver.GoesOn before records after) fun _ _ => False := by
  cases dealing with
  | call asked =>
    cases asked with
    | run inprocessing =>
      refine .attempt ((run_moves standing).bind ?_)
      rintro status after ⟨_, frozen, _, more, further, moves⟩
      exact .pure ⟨more, moves.passes frozen, further⟩
    | _ => cases isRun
  | exchange solver inprocessing =>
    exact .attempt ((lending_ends (SearchSolver.roundTrip_passes standing)).bind
      fun _ _ goesOn => .pure goesOn)

/-- The clauses that came in by a call. What an exchange brings is not among them. -/
def Dealt.added : Dealt → List (List Int)
  | ⟨before, .call asked, answer⟩ => Entry.added ⟨before, asked, answer⟩
  | ⟨_, .exchange _ _, _⟩ => []

/-- Calls added clauses only over variables that had numbers or were new. -/
def AddsNumbered (entries : List Dealt) : Prop :=
  ∀ entry ∈ entries, ∀ clause ∈ entry.added, ∀ literal ∈ clause,
    entry.before.Numbered (Literal.ofInt literal).var ∨
      entry.before.numVars < (Literal.ofInt literal).var

instance (entries : List Dealt) : Decidable (AddsNumbered entries) :=
  inferInstanceAs (Decidable (∀ entry ∈ entries, _))

/-! ## Where dealings begin -/

/-- A simplifier on which no run was made. -/
structure Fresh (simplifier : Simplifier) : Prop where
  standing : simplifier.Standing []
  inactive : simplifier.numbering.isActive = false
  removed : ∀ name, ¬ simplifier.engine.trail.Removed name

theorem fresh_ofVars (settings : Settings) {numVars : Nat} (small : numVars < 2 ^ 31) :
    (ofVars settings numVars).Fresh :=
  ⟨standing_ofVars settings small, rfl, removed_ofVars numVars⟩

/-- A simplifier made of clauses is fresh. -/
theorem fresh_of_ofClauses {settings : Settings} {formula : List (List Int)}
    (made : ofClauses settings formula = .done () start)
    (small : ∀ clause ∈ formula, ∀ literal ∈ clause, literal.natAbs < 2 ^ 31) : start.Fresh := by
  obtain ⟨blank, base, isBlank, _, course, unrun, _⟩ := exists_course_of_ofClauses made small
  obtain ⟨_, inactive, removed⟩ := course.calm isBlank unrun
  exact ⟨course.standing, inactive, removed⟩

/-! ## Protection -/

/-- A variable was protected whenever a run was about to be made. -/
def ProtectedAtRuns (name : Nat) (entries : List Dealt) : Prop :=
  ∀ entry ∈ entries, entry.dealing.isRun = true → entry.before.engine.trail.Frozen name

/-- A call that protected a variable. -/
def Dealt.protects (name : Nat) : Dealt → Bool
  | ⟨_, .call (.freeze other), .ok _⟩ => other == name
  | _ => false

/-- A call that takes the protection of a variable back. -/
def Dealing.unprotects (name : Nat) : Dealing → Bool
  | .call (.unfreeze other) => other == name
  | _ => false

/-- A call protected the variable before the first run, and no call has taken the protection
back since. -/
def KeptProtected (name : Nat) : List Dealt → Prop
  | [] => False
  | entry :: earlier =>
    entry.protects name = true ∧ (∀ other ∈ earlier, other.dealing.isRun = false) ∨
      entry.dealing.unprotects name = false ∧ KeptProtected name earlier

instance (name : Nat) : (entries : List Dealt) → Decidable (KeptProtected name entries)
  | [] => .isFalse id
  | _ :: earlier =>
    let _ : Decidable (KeptProtected name earlier) := instDecidableKeptProtected name earlier
    inferInstanceAs (Decidable (_ ∨ _))

/-- Every call but one keeps a variable protected. -/
theorem Call.frozen_ends {name : Nat} (asked : Call) (standing : before.Standing records)
    (frozen : before.engine.trail.Frozen name) (kept : asked ≠ .unfreeze name) :
    asked.perform.attempt.Ends before (fun _ after => after.engine.trail.Frozen name)
      fun _ _ => False := by
  refine .attempt ?_
  cases asked with
  | newVar =>
    refine (newVar_widens standing.sane.trail.nonempty).bind fun _ after widens => .pure ?_
    exact widens.frozen ▸ frozen
  | addClause clause =>
    refine .bind (addClause_ends clause standing.sane.toInStep |>.imp (fun _ _ adds => adds)
      fun cause after adds => ?_) fun _ after adds => .pure ?_
    · exact (adds.moves standing).2.1 ▸ frozen
    · exact (adds.moves standing).2.1 ▸ frozen
  | freeze other =>
    refine .bind ((freeze_ends standing.sane.trail.numVars_lt).imp (fun _ _ held => held) ?_) ?_
    · rintro _ _ rfl
      exact frozen
    · rintro _ _ ⟨_, _, _, trail, switches, rfl⟩
      refine .pure ((switches.frozen name).2 ?_)
      split
      · rfl
      · exact frozen
  | unfreeze other =>
    refine .bind (unfreeze_ends.imp (fun _ _ held => held) ?_) ?_
    · rintro _ _ rfl
      exact frozen
    · rintro _ _ ⟨trail, switches, rfl⟩
      refine .pure ((switches.frozen name).2 ?_)
      rw [if_neg]
      · exact frozen
      · rintro rfl
        exact kept rfl
  | interrupt on => exact .step rfl (.pure frozen)
  | proof on => exact .step rfl (.pure frozen)
  | run inprocessing =>
    refine (run_moves standing).bind ?_
    rintro status after ⟨_, same, _⟩
    refine .pure ?_
    rwa [same]

/-- A call that is not refused protects its variable. -/
theorem Call.freeze_protects {name : Nat} (standing : before.Standing records) :
    (Call.freeze name).perform.attempt.Ends before
      (fun answer after => ∀ status, answer = .ok status → 0 < name ∧ after.engine.trail.Frozen name)
      fun _ _ => False := by
  refine .attempt (.bind ((freeze_ends standing.sane.trail.numVars_lt).imp (fun _ _ held => held) fun _ _ _ => nofun) ?_)
  rintro _ _ ⟨positive, _, _, trail, switches, rfl⟩
  exact .pure fun _ _ => ⟨positive, (switches.frozen name).2 (by rw [if_pos rfl])⟩

/-- What a call protected stays so until a call takes that back. -/
theorem Dealing.frozen_ends {name : Nat} (dealing : Dealing) (standing : before.Standing records)
    (frozen : before.engine.trail.Frozen name) (kept : dealing.unprotects name = false) :
    dealing.perform.attempt.Ends before (fun _ after => after.engine.trail.Frozen name)
      fun _ _ => False := by
  cases dealing with
  | call asked =>
    refine asked.frozen_ends standing frozen ?_
    rintro rfl
    exact absurd kept (by simp [unprotects])
  | exchange solver inprocessing =>
    refine .attempt ((lending_ends (SearchSolver.roundTrip_passes standing)).bind ?_)
    rintro _ _ ⟨_, passes, _⟩
    exact .pure (passes.frozen ▸ frozen)

/-- A variable that is left alone: no record chooses it, it has a number, and it was
not removed. -/
structure Spared (name : Nat) (records : List Record) (simplifier : Simplifier) : Prop where
  chosen : ∀ record ∈ records, record.chosen.var ≠ name
  numbered : simplifier.Numbered name
  present : ¬ simplifier.engine.trail.Removed name

/-- Passing leaves a protected variable alone. -/
theorem Spared.passes {name : Nat} {more : List Record} (spared : Spared name records before)
    (passes : before.Passes more after) (positive : 0 < name)
    (frozen : before.engine.trail.Frozen name) : Spared name (records ++ more) after where
  chosen := List.forall_mem_append.2 ⟨spared.chosen, fun record member same =>
    passes.unprotected record member (same ▸ frozen)⟩
  numbered := passes.numbered name positive spared.numbered frozen
  present removed := (passes.removed name removed).elim spared.present fun unfrozen =>
    unfrozen frozen

/-- A call that is no run leaves every variable alone. -/
theorem Spared.calm {name : Nat} (spared : Spared name records before)
    (renumbers : before.Renumbers after)
    (active : after.numbering.isActive = before.numbering.isActive)
    (removed : after.engine.trail.Removed = before.engine.trail.Removed) :
    Spared name records after where
  chosen := spared.chosen
  numbered isActive := by
    have wasActive := active ▸ isActive
    rcases renumbers with ⟨_, names⟩ | ⟨_, inactive, _⟩
    · rw [names wasActive]
      exact List.mem_append_left _ (spared.numbered wasActive)
    · rw [inactive] at wasActive
      cases wasActive
  present := removed ▸ spared.present

/-- What holds of all dealings: the simplifier is standing, its records are over its
variables, variables that were protected at every run are left alone, and the formula is
covered unless a call added a clause over a variable that had been left out. -/
structure Kept (entries : List Dealt) (records : List Record) (simplifier : Simplifier) : Prop where
  standing : simplifier.Standing records
  within : ∀ record ∈ records, ∀ literal ∈ record.literals,
    0 < literal.var ∧ literal.var ≤ simplifier.numVars
  spared : ∀ name, 0 < name → ProtectedAtRuns name entries → Spared name records simplifier
  covered : AddsNumbered entries → simplifier.Covered

/-- At the beginning nothing is protected. -/
theorem Fresh.kept (fresh : simplifier.Fresh) : Kept [] [] simplifier where
  standing := fresh.standing
  within := by simp
  spared name _ _ := by
    refine ⟨by simp, fun active => ?_, fresh.removed name⟩
    rw [fresh.inactive] at active
    cases active
  covered _ _ _ _ active := by
    rw [fresh.inactive] at active
    cases active

/-- A dealing keeps what holds of all dealings. -/
theorem Kept.perform (kept : Kept entries records before) (dealing : Dealing)
    {answer : Except Error (Option Status)}
    (ended : dealing.perform.attempt before = .done answer after) :
    ∃ more, Kept (⟨before, dealing, answer⟩ :: entries) (records ++ more) after := by
  cases isRun : dealing.isRun with
  | true =>
    obtain ⟨more, passes, standing⟩ := (dealing.run_ends isRun kept.standing).done_of_eq ended
    refine ⟨more, standing, List.forall_mem_append.2 ⟨fun record member literal inside => ?_,
      passes.within⟩, fun name positive protectedAll => ?_, fun numbered => ?_⟩
    · obtain ⟨present, small⟩ := kept.within record member literal inside
      exact ⟨present, small.trans passes.numVars⟩
    · obtain ⟨now, earlier⟩ := List.forall_mem_cons.1 protectedAll
      exact (kept.spared name positive earlier).passes passes positive (now isRun)
    · exact passes.covered (kept.covered (List.forall_mem_cons.1 numbered).2)
  | false =>
    cases dealing with
    | exchange solver inprocessing => cases isRun
    | call asked =>
      obtain ⟨more, moved⟩ := (asked.perform_moves kept.standing).done_of_eq ended
      obtain ⟨rfl, active, removed⟩ := moved.calm isRun
      have standing := moved.standing
      refine ⟨[], ?_⟩
      rw [List.append_nil] at standing ⊢
      refine ⟨standing, fun record member literal inside => ?_, fun name positive protectedAll => ?_,
        fun numbered => ?_⟩
      · obtain ⟨present, small⟩ := kept.within record member literal inside
        exact ⟨present, small.trans moved.moves.numVars⟩
      · exact (kept.spared name positive (List.forall_mem_cons.1 protectedAll).2).calm
          moved.moves.renumbers active removed
      · obtain ⟨now, earlier⟩ := List.forall_mem_cons.1 numbered
        refine moved.moves.covered (kept.covered earlier) (List.forall_mem_map.2 fun clause isAdded => ?_)
        exact List.forall_mem_map.2 (now clause isAdded)

/-- However dealings follow each other, the simplifier is standing between them. -/
theorem Dealings.exists_kept (fresh : start.Fresh) (dealings : Dealings start entries final) :
    ∃ records, Kept entries records final := by
  induction dealings with
  | nil => exact ⟨[], fresh.kept⟩
  | made dealing earlier ended ih =>
    obtain ⟨records, kept⟩ := ih
    obtain ⟨more, keptOn⟩ := kept.perform dealing ended
    exact ⟨records ++ more, keptOn⟩

/-- A variable that calls keep protected is protected now and was so at every run. -/
theorem Dealings.frozen (fresh : start.Fresh) (dealings : Dealings start entries final) {name : Nat}
    (protected_ : KeptProtected name entries) :
    0 < name ∧ final.engine.trail.Frozen name ∧ ProtectedAtRuns name entries := by
  induction dealings with
  | nil => cases protected_
  | @made entries before after dealing answer earlier ended ih =>
    obtain ⟨records, kept⟩ := earlier.exists_kept fresh
    rcases protected_ with ⟨now, unrun⟩ | ⟨untaken, sofar⟩
    · unfold Dealt.protects at now
      split at now
      case h_2 => cases now
      next other _ same =>
        cases same
        obtain rfl : other = name := by simpa using now
        obtain ⟨positive, frozen⟩ := (Call.freeze_protects kept.standing).done_of_eq ended _ rfl
        exact ⟨positive, frozen, List.forall_mem_cons.2 ⟨nofun, fun other member isRun =>
          absurd (isRun.symm.trans (unrun other member)) (by decide)⟩⟩
    · obtain ⟨positive, frozen, atRuns⟩ := ih sofar
      refine ⟨positive, (dealing.frozen_ends kept.standing frozen untaken).done_of_eq ended, ?_⟩
      exact List.forall_mem_cons.2 ⟨fun _ => frozen, atRuns⟩

/-- How a simplifier is set up: for a formula, or for a number of variables. -/
inductive Begun (settings : Settings) (start : Simplifier) : Prop
  | formula {formula : List (List Int)} (made : ofClauses settings formula = .done () start)
    (small : ∀ clause ∈ formula, ∀ literal ∈ clause, literal.natAbs < 2 ^ 31)
  | vars {numVars : Nat} (made : start = ofVars settings numVars) (small : numVars < 2 ^ 31)

theorem Begun.fresh {settings : Settings} (begun : Begun settings start) : start.Fresh := by
  cases begun with
  | formula made small => exact fresh_of_ofClauses made small
  | vars made small => exact made ▸ fresh_ofVars settings small

/-! ## The exported form of a variable -/

/-- A variable that is there and has a number is exported under it. -/
theorem exportedLiteral?_eq {name number : Nat} (positive : 0 < name)
    (small : name ≤ simplifier.numVars) (sound : simplifier.engine.trail.Sound)
    (present : ¬ simplifier.engine.trail.Removed name)
    (found : simplifier.number? name = some number) :
    simplifier.exportedLiteral? (.ofVar name true) = some (.ofVar number true) := by
  have bound := sound.small
  have inside := Trail.lt_of_le_numVars sound.nonempty small
  have fits : 2 * name + 1 < UInt32.size := by
    simp only [UInt32.size]
    omega
  have var : (Literal.ofVar name true).var = name := Literal.var_ofVar positive fits
  unfold exportedLiteral?
  rw [var, if_neg (by omega)]
  cases flags : simplifier.engine.trail.flags? name with
  | none =>
    unfold Trail.flags? at flags
    rw [Array.getElem?_eq_getElem inside] at flags
    cases flags
  | some marks =>
    have kept : marks.isRemoved = false :=
      Bool.eq_false_iff.2 fun isRemoved => present ⟨marks, flags, isRemoved⟩
    dsimp only
    rw [kept, if_neg Bool.false_ne_true, exportLiteral?_eq (by rwa [var]), var, found, Option.map_some,
      Literal.isPositive_ofVar positive fits]

/-- A refuted formula is exported as the empty clause. -/
theorem exportedClauses_of_closed (closed : simplifier.engine.unsat = true) :
    simplifier.exportedClauses = [[]] := by
  unfold exportedClauses dump exportedLists
  rw [if_pos closed]
  rfl

/-- If all literals of a variable have the same sign, and there are some, this is its
value. -/
theorem valueIn_eq {literals : List Int} {name : Nat} {value : Bool}
    (agree : ∀ literal ∈ literals, literal.natAbs = name → decide (0 < literal) = value)
    (some_ : ∃ literal ∈ literals, literal.natAbs = name) :
    valueIn literals name = some value := by
  induction literals with
  | nil =>
    obtain ⟨_, member, _⟩ := some_
    cases member
  | cons literal rest ih =>
    obtain ⟨agreeFirst, agreeRest⟩ := List.forall_mem_cons.1 agree
    unfold valueIn
    by_cases later : ∃ other ∈ rest, other.natAbs = name
    · rw [ih agreeRest later]
      rfl
    · have none_ : valueIn rest name = none := by
        clear ih some_ agree agreeRest agreeFirst
        induction rest with
        | nil => rfl
        | cons other rest ih =>
          simp only [List.mem_cons, exists_eq_or_imp, not_or] at later
          rw [valueIn, ih later.2, if_neg later.1]
          rfl
      obtain ⟨other, member, same⟩ := some_
      rcases List.mem_cons.1 member with rfl | inRest
      · rw [none_, if_pos same, agreeFirst same]
        rfl
      · exact absurd ⟨other, inRest, same⟩ later

/-- A listing says what the values are. -/
theorem valueIn_listing {numVars name : Nat} {values : Assignment} (positive : 0 < name)
    (small : name ≤ numVars) : valueIn (listing numVars values) name = some (values name) := by
  refine valueIn_eq (fun literal member same => ?_) ?_
  · obtain ⟨other, _, rfl⟩ := List.mem_map.1 member
    cases isTrue : values other with
    | true =>
      simp only [isTrue, if_true, Int.natAbs_natCast] at same ⊢
      subst same
      rw [isTrue]
      exact decide_eq_true (by omega)
    | false =>
      simp only [isTrue, Bool.false_eq_true, if_false, Int.natAbs_neg, Int.natAbs_natCast] at same ⊢
      subst same
      rw [isTrue]
      exact decide_eq_false (by omega)
  · refine ⟨if values name then (name : Int) else -(name : Int),
      List.mem_map.2 ⟨name, List.mem_range'_1.2 (by omega), rfl⟩, ?_⟩
    split <;> simp

/-! ## Protected variables -/

/-- A variable that was protected before the first run and not given up since was not
removed, is exported, and is chosen by no record that was pushed. As long as no such record
has the separator for a literal, the records can be read off the stack, and every extension
of a model of the exported formula gives the variable the value that the model gives it. No
record has the separator unless there are variables for it. -/
theorem spared_of_protected {settings : Settings} {name : Nat} (begun : Begun settings start)
    (dealings : Dealings start entries final) (protected_ : KeptProtected name entries) :
    ¬ final.engine.trail.Removed name ∧
    (∃ image, final.exportedLiteral? (.ofVar name true) = some image) ∧
    ∃ records, final.engine.records = ({} : Reconstruction).pushAll records ∧
      (∀ record ∈ records, record.chosen.var ≠ name) ∧
      (final.numVars ≤ Literal.maxVar → ∀ record ∈ records, Literal.separator ∉ record.literals) ∧
      ((∀ record ∈ records, Literal.separator ∉ record.literals) →
        (∀ record ∈ final.engine.records.records, record.chosen.var ≠ name) ∧
        ∀ literals image value,
          (∀ literal ∈ literals, literal ≠ 0 ∧ literal.natAbs ≤ final.numExported) →
          (∀ clause ∈ final.exportedClauses, SatisfiedBy literals clause) →
          final.exportedLiteral? (.ofVar name true) = some image →
          valueIn literals image.var = some value →
          ∃ model, extendModel literals final = .done model final ∧
            valueIn model name = some value) := by
  obtain ⟨positive, frozen, atRuns⟩ := dealings.frozen begun.fresh protected_
  obtain ⟨records, kept⟩ := dealings.exists_kept begun.fresh
  have standing := kept.standing
  obtain ⟨chosen, numbered, present⟩ := kept.spared name positive atRuns
  have small : name ≤ final.numVars := by
    obtain ⟨flags, found, _⟩ := frozen
    obtain ⟨state, atName, _⟩ := Option.map_eq_some_iff.1 found
    exact Nat.le_sub_one_of_lt (Array.getElem?_eq_some_iff.1 atName).1
  obtain ⟨number, isNumber⟩ := numbered.exists_number?
  have exported := exportedLiteral?_eq positive small standing.sane.trail present isNumber
  refine ⟨present, ⟨_, exported⟩, records, standing.stack, chosen, fun fits record member inside => ?_,
    fun plain => ⟨?_, ?_⟩⟩
  · refine @Literal.ne_separator_of_le_maxVar Literal.separator ?_ rfl
    exact ((kept.within record member _ inside).2).trans fits
  · rw [standing.stack, Reconstruction.records_pushAll plain]
    intro record member
    obtain ⟨original, isRecord, rfl⟩ := List.mem_map.1 (List.mem_reverse.1 member)
    exact chosen original isRecord
  · intro literals image value proper satisfied isImage given
    obtain rfl : Literal.ofVar number true = image := Option.some.inj (exported.symm.trans isImage)
    have isOpen : final.engine.unsat = false := by
      refine Bool.eq_false_iff.2 fun closed => ?_
      rw [exportedClauses_of_closed closed] at satisfied
      obtain ⟨_, member, _⟩ := satisfied [] List.mem_cons_self
      cases member
    let _ : Realm := .all
    have exportable := standing.exportable isOpen
    have extensible := standing.extensible isOpen fun record member literal inside => by
      obtain ⟨present, inRange⟩ := kept.within record member literal inside
      exact ⟨present, inRange, fun same => plain record member (same ▸ inside)⟩
    obtain ⟨positiveNumber, _, smallNumber⟩ := number?_inRange exportable positive small isNumber
    rw [Literal.var_ofVar positiveNumber smallNumber] at given
    obtain ⟨values, reads, extended⟩ := extendModel_eq extensible isOpen proper
    refine ⟨_, extended, ?_⟩
    rw [valueIn_listing positive small, unwind_of_not_chosen chosen,
      reads.value_of_number? exportable standing.sound isOpen satisfied positive small isNumber given]

/-- A protected variable in a run that substitutes it for another, takes blocked clauses out and
numbers the variables, and in an exchange with a solver that knows one more variable.
The model makes the variable false. -/
theorem spared_of_protected_exchange :
    ∃ start entries final,
      ofClauses
        { Settings.bare {} with equivalences := true, blockedClauses := true, renumbering := true }
        [[2, -5], [-2, 5], [1, 2], [-1, 3]] = .done () start ∧
      Dealings start entries final ∧ entries.length = 3 ∧ KeptProtected 2 entries ∧
      final.engine.trail.substituted = 1 ∧ final.engine.records.count = 5 ∧
      (∀ record ∈ final.engine.records.records, record.chosen.var ≠ 2) ∧
      ∃ model, extendModel [-1] final = .done model final ∧ valueIn model 2 = some false := by
  obtain ⟨start, entries, final, made, dealings, checked⟩ := exists_of_dealTrial
    (ofClauses
      { Settings.bare {} with equivalences := true, blockedClauses := true, renumbering := true }
      [[2, -5], [-2, 5], [1, 2], [-1, 3]])
    [.exchange { numVars := 2, clauses := [[-1, 2]] } true, .call (.run false), .call (.freeze 2)]
    (fun entries final => decide (entries.length = 3 ∧ KeptProtected 2 entries ∧
      final.engine.trail.substituted = 1 ∧
      final.engine.records.count = 5 ∧ final.numVars = 6 ∧ final.numExported = 2 ∧
      final.exportedLiteral? (.ofVar 2 true) = some (.ofVar 1 true) ∧
      ∀ clause ∈ final.exportedClauses, SatisfiedBy [-1] clause)) (by decide +kernel)
  obtain ⟨length, kept, substituted, count, numVars, numExported, exported, satisfied⟩ :=
    of_decide_eq_true checked
  obtain ⟨_, _, records, _, _, plain, spared⟩ :=
    spared_of_protected (.formula made (by decide)) dealings kept
  obtain ⟨chosen, extended⟩ := spared (plain (by rw [numVars]; decide))
  refine ⟨start, entries, final, made, dealings, length, kept, substituted, count, chosen, ?_⟩
  exact extended [-1] (.ofVar 1 true) false (by rw [numExported]; decide) satisfied exported
    (by decide)

end Simplifier

/-- The clause `2 ∨ -1073741823` may be taken out on its second literal, which is the
separator. Its record is read back as one that chooses variable 2, and an extension changes
the value of that variable. -/
theorem Reconstruction.unspared_of_separator :
    let clause := [.ofInt 2, .ofInt (-1073741823)]
    let stack := ({} : Reconstruction).push (.ofInt (-1073741823)) clause
    Literal.ofInt (-1073741823) = Literal.separator ∧
      stack.records.map Record.chosen = [.ofInt 2] ∧
      stack.extend #[none, some true, some false] = some #[none, some true, some true] := by
  decide

end CnfSimplifier
