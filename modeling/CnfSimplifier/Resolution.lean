import CnfSimplifier.Arena

/-!
# Resolution

The resolvent of two clauses on a variable is their union without the literals of
that variable. It is a tautology if another variable occurs in the two with
opposite signs, and then it is of no use. Both clauses are ascending, so one
scan suffices. The length of a resolvent is found without building it.

A clause all of whose resolvents on a literal are tautologies is blocked on it.
-/
namespace CnfSimplifier.Resolution

/-- The length of the resolvent of two clauses on a variable, or `none` if it is a
tautology. -/
def size? (pivot : Nat) : List Literal → List Literal → Option Nat
  | [], [] => some 0
  | a :: first, [] =>
    if a.var = pivot then size? pivot first [] else (size? pivot first []).map (· + 1)
  | [], b :: second =>
    if b.var = pivot then size? pivot [] second else (size? pivot [] second).map (· + 1)
  | a :: first, b :: second =>
    if a.var = pivot then size? pivot first (b :: second)
    else if b.var = pivot then size? pivot (a :: first) second
    else if a.var = b.var then
      if a = b then (size? pivot first second).map (· + 1) else none
    else if a.var < b.var then (size? pivot first (b :: second)).map (· + 1)
    else (size? pivot (a :: first) second).map (· + 1)
termination_by first second => first.length + second.length

/-- The resolvent of two clauses on a variable, ascending, or `none` if it is a
tautology. -/
def resolvent? (pivot : Nat) : List Literal → List Literal → Option (List Literal)
  | [], [] => some []
  | a :: first, [] =>
    if a.var = pivot then resolvent? pivot first [] else (resolvent? pivot first []).map (a :: ·)
  | [], b :: second =>
    if b.var = pivot then resolvent? pivot [] second else (resolvent? pivot [] second).map (b :: ·)
  | a :: first, b :: second =>
    if a.var = pivot then resolvent? pivot first (b :: second)
    else if b.var = pivot then resolvent? pivot (a :: first) second
    else if a.var = b.var then
      if a = b then (resolvent? pivot first second).map (a :: ·) else none
    else if a.var < b.var then (resolvent? pivot first (b :: second)).map (a :: ·)
    else (resolvent? pivot (a :: first) second).map (b :: ·)
termination_by first second => first.length + second.length

/-- Whether the resolvent of two clauses on a variable is a tautology. -/
def isTautology (pivot : Nat) (first second : List Literal) : Bool :=
  (size? pivot first second).isNone

/-- Whether the resolvents of a clause with all the given ones are tautologies. -/
def isBlocked? (arena : Arena) (pivot : Nat) (literals : List Literal) :
    List Handle → Option Bool
  | [] => some true
  | handle :: rest => do
    let partner ← arena.get? handle
    if isTautology pivot literals partner.literals then
      isBlocked? arena pivot literals rest
    else return false

end CnfSimplifier.Resolution
