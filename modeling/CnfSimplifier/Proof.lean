import CnfSimplifier.Literal

/-!
# Proof steps

A proof lists the clauses that were added to and removed from a formula, in
order. It can be kept as data or written as text, one line a step: the literals,
each followed by a blank, and a closing zero, with `d` in front of a removal.

The writer collects its output in a buffer of fixed size and passes it on when a
piece does not fit. A receiver that refuses output closes the writer; from then
on steps are counted and not written.
-/
namespace CnfSimplifier

/-- A change of the clause set. -/
inductive ProofStep where
  | added (literals : List Literal)
  | removed (literals : List Literal)
deriving DecidableEq

namespace ProofStep

/-- What leads the line of a step. -/
def mark : ProofStep → String
  | .added _ => ""
  | .removed _ => "d "

/-- The clause of a step. -/
def literals : ProofStep → List Literal
  | .added literals => literals
  | .removed literals => literals

/-- The pieces in which a step is written. -/
def pieces (step : ProofStep) : List String :=
  step.mark :: step.literals.map (fun literal => toString literal.toInt ++ " ") ++ ["0\n"]

end ProofStep

/-- A writer of proof text. -/
structure ProofWriter where
  /-- Whether the receiver takes what it is given. -/
  accepting : Bool := true
  /-- Whether the writer still writes. -/
  active : Bool := true
  /-- What was passed on to the receiver. -/
  written : String := ""
  /-- What waits in the buffer. -/
  buffer : String := ""
  additions : Nat := 0
  removals : Nat := 0

namespace ProofWriter

/-- The size of the buffer in bytes. -/
def capacity : Nat := 8192

/-- Pass the buffer on. A refusing receiver refuses any nonempty text. -/
def flush (writer : ProofWriter) : Option ProofWriter :=
  if writer.buffer.isEmpty then some writer
  else if writer.accepting then
    some { writer with written := writer.written ++ writer.buffer, buffer := "" }
  else none

/-- Write one piece. A piece shorter than the free space goes into the buffer. A
longer one makes room first, and one as long as the whole buffer goes past it. -/
def writePiece (writer : ProofWriter) (piece : String) : Option ProofWriter :=
  let free := capacity - writer.buffer.utf8ByteSize
  if piece.utf8ByteSize < free then some { writer with buffer := writer.buffer ++ piece }
  else do
    let writer ← if piece.utf8ByteSize > free then writer.flush else some writer
    if piece.utf8ByteSize < capacity then return { writer with buffer := writer.buffer ++ piece }
    if writer.accepting then return { writer with written := writer.written ++ piece }
    none

/-- Write pieces until one is refused. -/
def writePieces (writer : ProofWriter) : List String → Option ProofWriter
  | [] => some writer
  | piece :: rest => do
    let writer ← writer.writePiece piece
    writer.writePieces rest

/-- Close the writer; what waits in the buffer is passed on if it is taken. -/
def close (writer : ProofWriter) : ProofWriter :=
  if writer.active then { writer.flush.getD writer with active := false } else writer

/-- Write a step, or only count it if the writer is closed. A refused piece
closes the writer. -/
def write (writer : ProofWriter) (step : ProofStep) : ProofWriter :=
  let writer :=
    match step with
    | .added _ => { writer with additions := writer.additions + 1 }
    | .removed _ => { writer with removals := writer.removals + 1 }
  if writer.active then
    match writer.writePieces step.pieces with
    | some writer => writer
    | none => { writer with active := false }
  else writer

/-- Everything the receiver has once the writer is closed. -/
def text (writer : ProofWriter) : String := writer.close.written

end ProofWriter

end CnfSimplifier
