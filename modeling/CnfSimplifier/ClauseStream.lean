/-!
# Clause streams

A formula can be passed on as one list of integers in which a zero ends each
clause. Reading cuts at every zero, whether it was meant as an end or not: a zero
among the literals of a clause makes two clauses of it. Clauses without zeros are
read back as they were written. Literals after the last zero belong to no clause.
-/
namespace CnfSimplifier.ClauseStream

/-- Write clauses, a zero after each. -/
def write (clauses : List (List Int)) : List Int :=
  clauses.flatMap fun clause => clause ++ [0]

/-- Put an integer in front of the clauses that follow it. -/
def prepend (value : Int) (clauses : List (List Int)) : List (List Int) :=
  if value = 0 then [] :: clauses
  else
    match clauses with
    | [] => []
    | clause :: rest => (value :: clause) :: rest

/-- Read the clauses of a stream. -/
def read (stream : List Int) : List (List Int) := stream.foldr prepend []

/-- A clause without zeros is read up to the zero behind it. -/
theorem read_append {clause : List Int} (noZero : 0 ∉ clause) (rest : List Int) :
    read (clause ++ 0 :: rest) = clause :: read rest := by
  induction clause with
  | nil => rfl
  | cons value others reads =>
    have nonzero : value ≠ 0 := fun zero => noZero (zero ▸ List.mem_cons_self)
    have later := reads fun member => noZero (List.mem_cons_of_mem value member)
    change prepend value (read (others ++ 0 :: rest)) = (value :: others) :: read rest
    rw [later, prepend, if_neg nonzero]

/-- Clauses without zeros are read back as they were written. -/
theorem read_write {clauses : List (List Int)} (noZero : ∀ clause ∈ clauses, 0 ∉ clause) :
    read (write clauses) = clauses := by
  induction clauses with
  | nil => rfl
  | cons clause rest reads =>
    have later := reads fun other member => noZero other (List.mem_cons_of_mem clause member)
    have stream : write (clause :: rest) = clause ++ 0 :: write rest := by
      simp only [write, List.flatMap_cons, List.append_assoc, List.cons_append, List.nil_append]
    rw [stream, read_append (noZero clause List.mem_cons_self), later]

end CnfSimplifier.ClauseStream
