import CnfSimplifier.Literal

/-!
# Laws of literals

The code of a literal holds its variable and its sign, and nothing else. Laws
about complements need a variable above 0: code 1 belongs to no variable, and its
flipped code is not a code at all.
-/
namespace CnfSimplifier.Literal

/-- The sign is the parity of the code. -/
theorem isPositive_eq (l : Literal) : l.isPositive = decide (l.code.toNat % 2 = 0) := by
  have low : (l.code &&& 1).toNat = l.code.toNat % 2 := by
    simp [UInt32.toNat_and, Nat.and_one_is_mod]
  unfold isPositive
  by_cases even : l.code.toNat % 2 = 0
  · have : l.code &&& 1 = 0 := UInt32.toNat_inj.1 (by simp [low, even])
    simp [this, even]
  · have : l.code &&& 1 ≠ 0 := fun zero => even (by rw [← low, zero]; rfl)
    simp [this, even]

/-- Flipping the lowest bit of a code leaves the variable. -/
theorem flip_div_two (code : UInt32) : (code ^^^ 1).toNat / 2 = code.toNat / 2 := by
  rw [UInt32.toNat_xor, Nat.xor_div_two]
  exact Nat.xor_zero _

/-- Flipping the lowest bit of a code changes the sign. -/
theorem flip_mod_two (code : UInt32) : (code ^^^ 1).toNat % 2 = 1 - code.toNat % 2 := by
  have one : (1 : UInt32).toNat = 1 := rfl
  have low : (code ^^^ 1).toNat % 2 ^ 1 = code.toNat % 2 ^ 1 ^^^ 1 % 2 ^ 1 := by
    rw [UInt32.toNat_xor, Nat.xor_mod_two_pow, one]
  simp only [Nat.pow_one] at low
  rw [low]
  rcases Nat.mod_two_eq_zero_or_one code.toNat with even | odd
  · rw [even]; rfl
  · rw [odd]; rfl

/-- The complement of a literal of a variable has the flipped code. -/
theorem code_complement {l : Literal} (present : 0 < l.var) :
    l.complement.code = l.code ^^^ 1 := by
  have nonzero : l.code ^^^ 1 ≠ 0 := by
    intro zero
    have halves := flip_div_two l.code
    rw [zero] at halves
    have zeroHalf : (0 : UInt32).toNat / 2 = 0 := rfl
    rw [zeroHalf] at halves
    exact absurd halves.symm (Nat.ne_of_gt present)
  simp [complement, ofCode, nonzero]

/-- A literal and its complement have the same variable. -/
theorem var_complement {l : Literal} (present : 0 < l.var) : l.complement.var = l.var := by
  rw [var, code_complement present, flip_div_two, ← var]

/-- A literal and its complement have opposite signs. -/
theorem isPositive_complement {l : Literal} (present : 0 < l.var) :
    l.complement.isPositive = !l.isPositive := by
  rw [isPositive_eq, isPositive_eq, code_complement present, flip_mod_two]
  rcases Nat.mod_two_eq_zero_or_one l.code.toNat with even | odd
  · simp [even]
  · simp [odd]

/-- A literal is determined by its variable and its sign. -/
theorem ext_var {a b : Literal} (sameVar : a.var = b.var) (sameSign : a.isPositive = b.isPositive) :
    a = b := by
  rw [isPositive_eq, isPositive_eq, decide_eq_decide] at sameSign
  simp only [var] at sameVar
  exact ext (UInt32.toNat_inj.1 (by omega))

/-- Complementing twice gives the literal back. -/
theorem complement_complement {l : Literal} (present : 0 < l.var) :
    l.complement.complement = l := by
  have again : 0 < l.complement.var := by rwa [var_complement present]
  apply ext_var
  · rw [var_complement again, var_complement present]
  · rw [isPositive_complement again, isPositive_complement present, Bool.not_not]

/-- No literal is its own complement. -/
theorem complement_ne {l : Literal} (present : 0 < l.var) : l.complement ≠ l := by
  intro same
  have signs := isPositive_complement present
  rw [same] at signs
  simp at signs

/-- Within 32 bits a code is kept as it is. -/
theorem toNat_code_ofNat {code : Nat} (positive : 0 < code) (small : code < UInt32.size) :
    (ofNat code).code.toNat = code := by
  have value : (UInt32.ofNat code).toNat = code := UInt32.toNat_ofNat_of_lt small
  have nonzero : UInt32.ofNat code ≠ 0 := by
    intro zero
    rw [zero] at value
    exact absurd value (Nat.ne_of_lt positive)
  simp [ofNat, ofCode, nonzero, value]

/-- A literal made from a variable has that variable. -/
theorem var_ofVar {name : Nat} {positive : Bool} (present : 0 < name)
    (small : 2 * name + 1 < UInt32.size) : (ofVar name positive).var = name := by
  have bound : (if positive then 0 else 1) ≤ 1 := by split <;> omega
  rw [var, ofVar, toNat_code_ofNat (by omega) (by omega)]
  omega

/-- A literal made with a sign has that sign. -/
theorem isPositive_ofVar {name : Nat} {positive : Bool} (present : 0 < name)
    (small : 2 * name + 1 < UInt32.size) : (ofVar name positive).isPositive = positive := by
  rw [isPositive_eq, ofVar]
  cases positive
  · rw [if_neg Bool.false_ne_true, toNat_code_ofNat (by omega) (by omega)]
    simp
  · rw [if_pos rfl, toNat_code_ofNat (by omega) (by omega)]
    simp

/-- A signed integer names the variable by its absolute value. -/
theorem ofInt_eq (value : Int) : ofInt value = ofVar value.natAbs (decide (0 ≤ value)) := by
  unfold ofInt ofVar
  congr 2
  by_cases negative : value < 0
  · simp [negative]
  · simp [negative]

/-- Reading a signed integer and writing it again gives it back. -/
theorem toInt_ofInt {value : Int} (nonzero : value ≠ 0) (small : 2 * value.natAbs + 1 < UInt32.size) :
    (ofInt value).toInt = value := by
  rw [ofInt_eq, toInt, isPositive_ofVar (by omega) small, var_ofVar (by omega) small]
  by_cases nonnegative : 0 ≤ value
  · rw [decide_eq_true nonnegative, if_pos rfl]
    omega
  · rw [decide_eq_false nonnegative, if_neg Bool.false_ne_true]
    omega

/-- Writing a literal as a signed integer and reading it gives it back. -/
theorem ofInt_toInt {l : Literal} (present : 0 < l.var) : ofInt l.toInt = l := by
  have small : 2 * l.var + 1 < UInt32.size := by
    have := l.code.toNat_lt
    simp only [var, UInt32.size]
    omega
  have size : l.toInt.natAbs = l.var := by
    unfold toInt; split <;> omega
  have sign : decide (0 ≤ l.toInt) = l.isPositive := by
    unfold toInt
    cases l.isPositive
    · rw [if_neg Bool.false_ne_true]
      exact decide_eq_false (by omega)
    · rw [if_pos rfl]
      exact decide_eq_true (by omega)
  rw [ofInt_eq, size, sign]
  exact ext_var (var_ofVar present small) (isPositive_ofVar present small)

/-- Two literals of one variable are equal or complements. -/
theorem eq_or_eq_complement {a b : Literal} (present : 0 < b.var) (same : a.var = b.var) :
    a = b ∨ a = b.complement := by
  by_cases sign : a.isPositive = b.isPositive
  · exact .inl (Literal.ext_var same sign)
  · refine .inr (Literal.ext_var (same.trans (Literal.var_complement present).symm) ?_)
    rw [Literal.isPositive_complement present]
    exact Bool.eq_not_of_ne sign

/-- No literal occurs twice in a strictly ascending list. -/
theorem nodup_of_pairwise_lt {literals : List Literal} (sorted : literals.Pairwise (· < ·)) :
    literals.Nodup := by
  refine sorted.imp fun {a b} below same => ?_
  subst same
  exact UInt32.lt_irrefl a.code below

/-- The order of variables is that of their literals. -/
theorem le_of_var_lt {a b : Literal} (less : a.var < b.var) : a ≤ b := by
  change a.code.toNat ≤ b.code.toNat
  unfold Literal.var at less
  omega

theorem var_le_of_le {a b : Literal} (below : a ≤ b) : a.var ≤ b.var :=
  Nat.div_le_div_right below

end CnfSimplifier.Literal
