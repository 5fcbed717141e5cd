/-!
# Marks on variables and clauses

Both kinds of marks are sets of named switches. Each set has a fixed rendering as
a byte, one bit a switch, which is how state reports show it.
-/
namespace CnfSimplifier

/-- The marks a variable can carry. -/
inductive VarFlag where
  /-- Removed by resolution or together with its blocked clauses. -/
  | eliminated
  /-- Protected: it is neither eliminated, substituted nor left without a number. -/
  | frozen
  /-- Replaced by the representative of its equivalence class. -/
  | substituted
  /-- Waiting in a queue of the eliminator. -/
  | queued
  /-- Its occurrences changed since the last look. -/
  | touched
deriving DecidableEq

namespace VarFlag

/-- All marks, in order. -/
def all : List VarFlag := [.eliminated, .frozen, .substituted, .queued, .touched]

/-- The letter of a mark in short written forms. -/
def letter : VarFlag → String
  | .eliminated => "E"
  | .frozen => "F"
  | .substituted => "S"
  | .queued => "Q"
  | .touched => "T"

end VarFlag

/-- The marks of one variable. -/
structure VarFlags where
  eliminated : Bool := false
  frozen : Bool := false
  substituted : Bool := false
  queued : Bool := false
  touched : Bool := false
deriving DecidableEq, Inhabited

namespace VarFlags

/-- Whether a mark is on. -/
def has (flags : VarFlags) : VarFlag → Bool
  | .eliminated => flags.eliminated
  | .frozen => flags.frozen
  | .substituted => flags.substituted
  | .queued => flags.queued
  | .touched => flags.touched

/-- Switch one mark and leave the others. -/
def set (flags : VarFlags) (flag : VarFlag) (on : Bool) : VarFlags :=
  match flag with
  | .eliminated => { flags with eliminated := on }
  | .frozen => { flags with frozen := on }
  | .substituted => { flags with substituted := on }
  | .queued => { flags with queued := on }
  | .touched => { flags with touched := on }

/-- A variable may be taken out of the formula unless it is protected or gone. -/
def isRemovable (flags : VarFlags) : Bool :=
  !(flags.eliminated || flags.frozen || flags.substituted)

/-- A variable is gone when it was eliminated or substituted. -/
def isRemoved (flags : VarFlags) : Bool := flags.eliminated || flags.substituted

/-- One bit a mark, in the order of `VarFlag`. -/
def toBits (flags : VarFlags) : UInt8 :=
  (if flags.eliminated then 1 else 0) ||| (if flags.frozen then 2 else 0) |||
  (if flags.substituted then 4 else 0) ||| (if flags.queued then 8 else 0) |||
  (if flags.touched then 16 else 0)

/-- The marks of a byte; bits without a mark are dropped. -/
def ofBits (bits : UInt8) : VarFlags where
  eliminated := bits &&& 1 != 0
  frozen := bits &&& 2 != 0
  substituted := bits &&& 4 != 0
  queued := bits &&& 8 != 0
  touched := bits &&& 16 != 0

theorem ofBits_toBits (flags : VarFlags) : ofBits flags.toBits = flags := by
  rcases flags with ⟨_ | _, _ | _, _ | _, _ | _, _ | _⟩ <;> decide

end VarFlags

/-- The marks of one clause. -/
structure ClauseFlags where
  /-- Implied by the irredundant clauses, so it may go without a record. -/
  redundant : Bool := false
  /-- Deleted; the slot waits for compaction. -/
  dead : Bool := false
  /-- Still to be tried as a subsuming clause. -/
  subsume : Bool := false
  /-- Still to be tried as a strengthening clause. -/
  strengthen : Bool := false
  /-- Waiting in a work queue. -/
  queued : Bool := false
deriving DecidableEq, Inhabited

namespace ClauseFlags

/-- One bit a mark, in the order of the fields. -/
def toBits (flags : ClauseFlags) : UInt8 :=
  (if flags.redundant then 1 else 0) ||| (if flags.dead then 2 else 0) |||
  (if flags.subsume then 4 else 0) ||| (if flags.strengthen then 8 else 0) |||
  (if flags.queued then 16 else 0)

end ClauseFlags

end CnfSimplifier
