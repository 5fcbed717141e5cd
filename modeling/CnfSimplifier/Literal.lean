/-!
# Literals

A literal is a variable with a sign. It is kept as one nonzero 32-bit word, its
*code*: `2 * v` for the positive literal of variable `v` and `2 * v + 1` for the
negative one. Complementing flips the lowest bit, and the order of literals is
the order of their codes, so the two literals of a variable are neighbours.

Words are cut to 32 bits wherever a literal is made from a number, and the code
zero, which no literal has, stands for the separator literal instead. The
separator is never part of a formula; it divides the records of the
reconstruction stack.

A variable is named by its index. The variables of a formula start at 1.
-/
namespace CnfSimplifier

/-- A literal, held as its nonzero code. -/
structure Literal where
  code : UInt32
  code_ne_zero : code ≠ 0
deriving DecidableEq

namespace Literal

/-- The literal that divides records: the greatest code of 31 bits. -/
def separator : Literal := ⟨0x7FFFFFFF, by decide⟩

instance : Inhabited Literal := ⟨separator⟩

/-- The literal with a given code; code zero gives the separator. -/
def ofCode (code : UInt32) : Literal :=
  if nonzero : code ≠ 0 then ⟨code, nonzero⟩ else separator

/-- The literal with a given code, cut to 32 bits first. -/
def ofNat (code : Nat) : Literal := ofCode (UInt32.ofNat code)

/-- The literal of a variable with a sign, `true` for the positive one. -/
def ofVar (name : Nat) (positive : Bool) : Literal :=
  ofNat (2 * name + if positive then 0 else 1)

/-- The literal written as a signed integer: the sign is the polarity and the
absolute value names the variable. -/
def ofInt (value : Int) : Literal :=
  ofNat (2 * value.natAbs + if value < 0 then 1 else 0)

/-- The variable of a literal. -/
def var (literal : Literal) : Nat := literal.code.toNat / 2

/-- Whether a literal is the positive one of its variable. -/
def isPositive (literal : Literal) : Bool := literal.code &&& 1 == 0

/-- The signed integer of a literal. -/
def toInt (literal : Literal) : Int :=
  if literal.isPositive then (literal.var : Int) else -(literal.var : Int)

/-- The other literal of the same variable. -/
def complement (literal : Literal) : Literal := ofCode (literal.code ^^^ 1)

/-- Where a table indexed by literals keeps the entry of this one. -/
def index (literal : Literal) : Nat := literal.code.toNat

/-- The value of a literal when its variable has the given value. -/
def valueUnder (literal : Literal) (value : Option Bool) : Option Bool :=
  value.map (· == literal.isPositive)

/-- Whether a literal is true when its variable has the given value. -/
def isTrueUnder (literal : Literal) (value : Option Bool) : Bool :=
  literal.valueUnder value == some true

instance : LT Literal := ⟨fun a b => a.code < b.code⟩
instance : LE Literal := ⟨fun a b => a.code ≤ b.code⟩
instance (a b : Literal) : Decidable (a < b) := inferInstanceAs (Decidable (a.code < b.code))
instance (a b : Literal) : Decidable (a ≤ b) := inferInstanceAs (Decidable (a.code ≤ b.code))

/-- Literals are ordered as their codes. -/
theorem lt_def {a b : Literal} : a < b ↔ a.code < b.code := Iff.rfl

theorem le_def {a b : Literal} : a ≤ b ↔ a.code ≤ b.code := Iff.rfl

@[ext] theorem ext {a b : Literal} (same : a.code = b.code) : a = b := by
  cases a; cases b; cases same; rfl

/-- Literals with an order between them in both directions are equal. -/
theorem le_antisymm {a b : Literal} (forward : a ≤ b) (backward : b ≤ a) : a = b :=
  ext (UInt32.le_antisymm forward backward)

theorem le_trans {a b c : Literal} (first : a ≤ b) (second : b ≤ c) : a ≤ c :=
  UInt32.le_trans first second

theorem le_total (a b : Literal) : a ≤ b ∨ b ≤ a := UInt32.le_total a.code b.code

theorem lt_of_le_of_ne {a b : Literal} (below : a ≤ b) (different : a ≠ b) : a < b :=
  UInt32.lt_of_le_of_ne below fun same => different (ext same)

theorem lt_of_lt_of_le {a b c : Literal} (first : a < b) (second : b ≤ c) : a < c :=
  UInt32.lt_of_lt_of_le first second

/-- The written form of a literal in messages, such as `-3L`. -/
def text (literal : Literal) : String := toString literal.toInt ++ "L"

end Literal

/-- The signed integers of some literals, as messages show them: `[1, -3]`. -/
def Literal.listText (literals : List Literal) : String :=
  "[" ++ ", ".intercalate (literals.map fun l => toString l.toInt) ++ "]"

end CnfSimplifier
