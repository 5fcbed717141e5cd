import CnfSimplifier.Error
import CnfSimplifier.Technique

/-!
# Notices

What the simplifier tells about its own work: one notice an event worth telling,
each with a level and a fixed message. Notices are data; whether anyone reads
them is decided elsewhere.
-/
namespace CnfSimplifier

/-- How urgent a notice is. -/
inductive NoticeLevel where
  | error
  | warn
  | info
  | debug
  | trace
deriving DecidableEq

/-- The written form of a level. -/
def NoticeLevel.text : NoticeLevel → String
  | .error => "ERROR"
  | .warn => "WARN"
  | .info => "INFO"
  | .debug => "DEBUG"
  | .trace => "TRACE"

/-- Something worth telling. -/
inductive Notice where
  /-- The arena was compacted. -/
  | compacted (survivors : Nat) (epoch : UInt32)
  /-- An invariant was found broken. -/
  | violated (message : String)
  /-- A technique stopped for a cause that says nothing about the formula. -/
  | stopped (cause : Error)
  | unitsApplied (run units : Nat)
  | subsumed (run subsumed strengthened : Nat) (steps : UInt64)
  | eliminated (run numVars gates blocked : Nat) (steps : UInt64)
  | batchEliminated (run : Nat) (workers : UInt64) (numVars postponed : Nat) (steps : UInt64)
  | substituted (run numVars : Nat) (steps : UInt64)
  | binariesSolved (run units : Nat) (steps : UInt64)
  | probed (run failed necessary : Nat)
  | blockedRemoved (run clauses : Nat) (steps : UInt64)
  | renumbered (run numVars numbers : Nat)
  /-- A technique sat out a round. -/
  | skipped (technique : Technique)
  /-- A technique ran in a pass. -/
  | ran (technique : Technique) (status : Status) (changes : Nat) (used limit : UInt64)
  /-- A run began. -/
  | began (inprocessing : Bool) (run numVars : Nat) (clauses : UInt64)
  | interruptedAt (pass : Nat)
  | passed (pass changes : Nat)
  /-- A run ended. -/
  | ended (status : Status) (numVars assigned eliminated substituted : Nat) (clauses : UInt64)
      (records : Nat)
  /-- No run after a broken invariant. -/
  | refused (message : String)
  | importFailed (cause : Error)
  | exportFailed (cause : Error)
  | emptyExportFailed (cause : Error)

namespace Notice

/-- The level of a notice. -/
def level : Notice → NoticeLevel
  | .violated _ | .refused _ => .error
  | .stopped _ | .importFailed _ | .exportFailed _ | .emptyExportFailed _ => .warn
  | .ran .. | .began .. | .interruptedAt _ | .ended .. => .info
  | .unitsApplied .. | .skipped _ => .trace
  | _ => .debug

/-- The message of a notice. -/
def message : Notice → String
  | .compacted survivors epoch =>
    s!"compaction: {survivors} clauses survive at epoch {epoch.toNat}"
  | .violated message => message
  | .stopped cause => "a technique stopped by " ++ cause.message
  | .unitsApplied run units => s!"unit propagation #{run}: {units} new units"
  | .subsumed run dropped shortened steps =>
    s!"subsumption #{run}: {dropped} subsumed, {shortened} strengthened, {steps.toNat} steps"
  | .eliminated run numVars gates blocked steps =>
    s!"elimination #{run}: {numVars} vars eliminated ({gates} by gates), " ++
      s!"{blocked} blocked clauses, {steps.toNat} steps"
  | .batchEliminated run workers numVars postponed steps =>
    s!"parallel elimination #{run} by {workers.toNat} threads: {numVars} vars eliminated, " ++
      s!"{postponed} postponed, {steps.toNat} steps"
  | .substituted run numVars steps =>
    s!"equivalence #{run}: {numVars} vars substituted, {steps.toNat} steps"
  | .binariesSolved run units steps => s!"2-SAT #{run}: {units} units, {steps.toNat} steps"
  | .probed run failed necessary =>
    s!"probing #{run}: {failed} failed literals, {necessary} necessary assignments"
  | .blockedRemoved run clauses steps =>
    s!"blocked clause elimination #{run}: {clauses} clauses, {steps.toNat} steps"
  | .renumbered run numVars numbers =>
    s!"densing #{run}: {numVars} vars to {numbers} vars"
  | .skipped technique => technique.text ++ " skipped by penalty"
  | .ran technique status changes used limit =>
    technique.text ++ ": " ++ status.text ++
      s!", {changes} changes, {used.toNat}/{limit.toNat} steps"
  | .began inprocessing run numVars clauses =>
    (if inprocessing then "inprocess" else "preprocess") ++
      s!" #{run}: {numVars} vars, {clauses.toNat} clauses"
  | .interruptedAt pass => s!"interrupted at pass {pass}"
  | .passed pass changes => s!"pass {pass}: {changes} changes"
  | .ended status numVars assigned gone replaced clauses records =>
    status.text ++ s!": {numVars} vars ({assigned} assigned, {gone} eliminated, " ++
      s!"{replaced} substituted), {clauses.toNat} clauses, {records} records"
  | .refused message => "refuse to run after an invariant violation: " ++ message
  | .importFailed cause => "failed to import the formula: " ++ cause.message
  | .exportFailed cause => "failed to export the formula: " ++ cause.message
  | .emptyExportFailed cause => "failed to export the empty clause: " ++ cause.message

/-- A notice with its level in front. -/
def text (notice : Notice) : String := notice.level.text ++ ": " ++ notice.message

end Notice

end CnfSimplifier
