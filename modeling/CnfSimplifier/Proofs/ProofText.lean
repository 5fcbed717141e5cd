import CnfSimplifier.Literal.Lemmas
import CnfSimplifier.Proof

/-!
# What the text of a proof says

A step is written in many pieces, and they reach the receiver through a buffer. As long as the
receiver takes everything, the buffer only delays: what was passed on and what still waits are
together what was written, and closing passes on the rest.

The text is read by lines, and the end of a line ends its step. The last word of a line is the zero,
the words before it are literals, and a removal has its mark in front. The line, and not the first
zero, is what tells one step from the next: a literal of no variable is written as a zero too, so a
zero inside a line is a literal. No word has a blank or a line end in it, and the line of an
addition never starts like a removal, so the text of any steps is read back as these steps.
-/
namespace CnfSimplifier

/-! ## Reading -/

namespace ProofText

/-- The pieces between separators, if the last of them is a given one, which is left out. -/
def piecesBefore? (separator : Char) (last text : List Char) : Option (List (List Char)) :=
  let pieces := text.splitOn separator
  if pieces.getLast? = some last then some pieces.dropLast else none

/-- The number that some decimal digits stand for, if there are any and nothing else. -/
def decimal? (digits : List Char) : Option Nat :=
  if digits ≠ [] ∧ digits.all Char.isDigit = true then some (Nat.ofDigitChars 10 digits 0) else none

/-- A decimal number with or without a minus. -/
def integer? : List Char → Option Int
  | '-' :: digits => (decimal? digits).map Int.negOfNat
  | digits => (decimal? digits).map Int.ofNat

/-- The literal with a given signed integer, if there is one. Zero belongs to the literal of no
variable. -/
def literalOf? (value : Int) : Option Literal :=
  if 2 * value.natAbs + 1 < UInt32.size then
    some (.ofNat (2 * value.natAbs + if 0 < value then 0 else 1))
  else none

/-- The clause of a line without its mark: literals, a blank after each, and the closing zero. -/
def clause? (line : List Char) : Option (List Literal) := do
  let words ← piecesBefore? ' ' ['0'] line
  words.mapM fun word => (integer? word).bind literalOf?

/-- The step of a line. -/
def step? : List Char → Option ProofStep
  | 'd' :: ' ' :: line => (clause? line).map .removed
  | line => (clause? line).map .added

/-- The steps of a text, one a line; every line has an end. -/
def read? (text : String) : Option (List ProofStep) := do
  let lines ← piecesBefore? '\n' [] text.toList
  lines.mapM step?

end ProofText

/-! ## What the receiver has -/

namespace ProofWriter

variable {writer middle after : ProofWriter} {text further : String}

/-- Everything that was written, passed on or not. -/
def output (writer : ProofWriter) : String := writer.written ++ writer.buffer

/-- A writer with a receiver that takes everything has written some more text. -/
structure Continues (writer after : ProofWriter) (text : String) : Prop where
  accepting : after.accepting = true
  active : after.active = writer.active
  output : after.output = writer.output ++ text

theorem Continues.trans (first : Continues writer middle text)
    (second : Continues middle after further) : Continues writer after (text ++ further) where
  accepting := second.accepting
  active := second.active.trans first.active
  output := by rw [second.output, first.output, String.append_assoc]

/-- Text that goes into the buffer is written. -/
theorem continues_buffer (accepting : writer.accepting = true) (piece : String) :
    Continues writer { writer with buffer := writer.buffer ++ piece } piece where
  accepting := accepting
  active := rfl
  output := by simp only [output, String.append_assoc]

/-- Passing the buffer on leaves it empty and what was written as it is. -/
theorem flush_continues (accepting : writer.accepting = true) :
    ∃ after, writer.flush = some after ∧ after.buffer = "" ∧ Continues writer after "" := by
  unfold flush
  by_cases empty : writer.buffer.isEmpty
  · exact ⟨writer, by rw [if_pos empty], String.isEmpty_iff.1 empty, accepting, rfl, by simp⟩
  · refine ⟨{ writer with written := writer.written ++ writer.buffer, buffer := "" },
      by rw [if_neg empty, if_pos accepting], rfl, accepting, rfl, ?_⟩
    simp [output]

/-- Once room was made, a piece goes into the buffer or, if it is as long as the whole buffer and
the buffer is empty, past it. -/
theorem store_continues (room : Continues writer middle "") {piece : String}
    (empty : capacity ≤ piece.utf8ByteSize → middle.buffer = "") :
    ∃ after, (if piece.utf8ByteSize < capacity then
        some { middle with buffer := middle.buffer ++ piece }
      else if middle.accepting then some { middle with written := middle.written ++ piece }
      else none) = some after ∧ Continues writer after piece := by
  by_cases small : piece.utf8ByteSize < capacity
  · refine ⟨_, if_pos small, ?_⟩
    simpa using room.trans (continues_buffer room.accepting piece)
  · refine ⟨{ middle with written := middle.written ++ piece },
      by rw [if_neg small, if_pos room.accepting], room.accepting, room.active, ?_⟩
    have before := room.output
    simp only [output, empty (Nat.le_of_not_lt small), String.append_empty] at before ⊢
    rw [before]

/-- A piece is taken, whatever its size. -/
theorem writePiece_continues (accepting : writer.accepting = true) (piece : String) :
    ∃ after, writer.writePiece piece = some after ∧ Continues writer after piece := by
  by_cases fits : piece.utf8ByteSize < capacity - writer.buffer.utf8ByteSize
  · exact ⟨_, by simp only [writePiece, if_pos fits], continues_buffer accepting piece⟩
  by_cases longer : piece.utf8ByteSize > capacity - writer.buffer.utf8ByteSize
  · obtain ⟨middle, flushed, empty, room⟩ := flush_continues accepting
    obtain ⟨after, stored, continues⟩ := store_continues room fun _ => empty
    refine ⟨after, ?_, continues⟩
    rw [← stored]
    simp [writePiece, fits, longer, flushed]
  · have positive : 0 < capacity := by decide
    -- Room for exactly one piece as long as the buffer is there only if nothing waits.
    have empty (whole : capacity ≤ piece.utf8ByteSize) : writer.buffer = "" :=
      String.utf8ByteSize_eq_zero_iff.1 (by omega)
    obtain ⟨after, stored, continues⟩ := store_continues ⟨accepting, rfl, by simp⟩ empty
    refine ⟨after, ?_, continues⟩
    rw [← stored]
    simp [writePiece, fits, longer]

/-- Pieces are written one after the other. -/
theorem writePieces_continues (accepting : writer.accepting = true) (pieces : List String) :
    ∃ after, writer.writePieces pieces = some after ∧
      Continues writer after (String.join pieces) := by
  induction pieces generalizing writer with
  | nil => exact ⟨writer, rfl, accepting, rfl, by simp⟩
  | cons piece rest ih =>
    obtain ⟨middle, taken, first⟩ := writePiece_continues accepting piece
    obtain ⟨after, takenRest, others⟩ := ih first.accepting
    refine ⟨after, ?_, ?_⟩
    · rw [writePieces, taken, Option.bind_eq_bind, Option.bind_some, takenRest]
    · rw [String.join_cons]
      exact first.trans others

/-- An active writer writes the pieces of a step. -/
theorem write_continues (accepting : writer.accepting = true) (active : writer.active = true)
    (step : ProofStep) : Continues writer (writer.write step) (String.join step.pieces) := by
  obtain ⟨counted, same, written⟩ : ∃ counted, Continues writer counted "" ∧
      ∀ after, counted.writePieces step.pieces = some after → writer.write step = after := by
    cases step with
    | added clause =>
      refine ⟨{ writer with additions := writer.additions + 1 }, ⟨accepting, rfl, by simp [output]⟩,
        fun after taken => ?_⟩
      unfold write
      dsimp only
      rw [if_pos active, taken]
    | removed clause =>
      refine ⟨{ writer with removals := writer.removals + 1 }, ⟨accepting, rfl, by simp [output]⟩,
        fun after taken => ?_⟩
      unfold write
      dsimp only
      rw [if_pos active, taken]
  obtain ⟨after, taken, continues⟩ := writePieces_continues same.accepting step.pieces
  rw [written after taken]
  simpa using same.trans continues

/-- Steps are written one after the other. -/
theorem foldl_write_continues (accepting : writer.accepting = true) (active : writer.active = true)
    (steps : List ProofStep) :
    Continues writer (steps.foldl write writer)
      (String.join (steps.map fun step => String.join step.pieces)) := by
  induction steps generalizing writer with
  | nil => exact ⟨accepting, rfl, by simp⟩
  | cons step rest ih =>
    have first := write_continues accepting active step
    rw [List.foldl_cons, List.map_cons, String.join_cons]
    exact first.trans (ih first.accepting (first.active.trans active))

/-- Closing passes on what still waits. -/
theorem written_close (accepting : writer.accepting = true) (active : writer.active = true) :
    writer.close.written = writer.output := by
  obtain ⟨after, flushed, empty, continues⟩ := flush_continues accepting
  have same := continues.output
  rw [output, empty] at same
  simpa [close, active, flushed] using same

/-- The receiver has the pieces of all steps, in order. -/
theorem written_of_accepting (steps : List ProofStep) :
    (steps.foldl write { accepting := true }).close.written =
      String.join (steps.map fun step => String.join step.pieces) := by
  have continues : Continues { accepting := true } (steps.foldl write { accepting := true }) _ :=
    foldl_write_continues rfl rfl steps
  rw [written_close continues.accepting continues.active, continues.output]
  rfl

end ProofWriter

/-! ## Reading what was written -/

namespace ProofText

variable {literal : Literal} {value : Int}

/-- How a literal is written. -/
def word (literal : Literal) : List Char := (toString literal.toInt).toList

/-- How a clause is written, up to the end of its line. -/
def body (clause : List Literal) : List Char := (clause.map word).flatMap (· ++ [' ']) ++ ['0']

/-- The line of a step. -/
def line : ProofStep → List Char
  | .added clause => body clause
  | .removed clause => 'd' :: ' ' :: body clause

/-- If each item is read as it was written, so are all of them. -/
theorem mapM_map_of_reads {α β : Type} {write : α → β} {read : β → Option α}
    (reads : ∀ item, read (write item) = some item) (items : List α) :
    (items.map write).mapM read = some items := by
  induction items with
  | nil => rfl
  | cons item rest ih => simp [reads, ih]

/-- Pieces without the separator are found again. -/
theorem piecesBefore?_flatMap {separator : Char} {last : List Char} {pieces : List (List Char)}
    (apart : ∀ piece ∈ pieces, separator ∉ piece) (apartLast : separator ∉ last) :
    piecesBefore? separator last (pieces.flatMap (· ++ [separator]) ++ last) = some pieces := by
  have split :
      (pieces.flatMap (· ++ [separator]) ++ last).splitOn separator = pieces ++ [last] := by
    induction pieces with
    | nil => exact List.splitOn_eq_singleton apartLast
    | cons piece rest ih =>
      obtain ⟨own, others⟩ := List.forall_mem_cons.1 apart
      rw [List.flatMap_cons, List.append_assoc, List.append_assoc, List.singleton_append,
        List.splitOn_append_cons_self_of_not_mem own, ih others, List.cons_append]
  rw [piecesBefore?, split]
  simp

/-- The digits of a number stand for it. -/
theorem decimal?_toDigits (number : Nat) : decimal? (Nat.toDigits 10 number) = some number := by
  have digits : (Nat.toDigits 10 number).all Char.isDigit = true :=
    List.all_eq_true.2 fun _ member => Nat.isDigit_of_mem_toDigits (by decide) (by decide) member
  rw [decimal?, if_pos ⟨Nat.toDigits_ne_nil, digits⟩, Nat.ofDigitChars_ten_toDigits]

/-- How an integer is written. -/
theorem toList_toString (value : Int) : (toString value).toList =
    if 0 ≤ value then Nat.toDigits 10 value.natAbs else '-' :: Nat.toDigits 10 value.natAbs := by
  rw [Int.toString_eq_repr, Int.repr_eq_if]
  by_cases nonnegative : 0 ≤ value
  · rw [if_pos nonnegative, if_pos nonnegative, Nat.toList_repr,
      show value.toNat = value.natAbs by omega]
  · rw [if_neg nonnegative, if_neg nonnegative, String.toList_append, Nat.toList_repr,
      show (-value).toNat = value.natAbs by omega]
    rfl

/-- An integer is read as it was written. -/
theorem integer?_toString (value : Int) : integer? (toString value).toList = some value := by
  rw [toList_toString]
  by_cases nonnegative : 0 ≤ value
  · have number : decimal? (Nat.toDigits 10 value.natAbs) = some value.natAbs := decimal?_toDigits _
    rw [if_pos nonnegative]
    unfold integer?
    split
    next digits starts =>
      have minus : '-' ∈ Nat.toDigits 10 value.natAbs := starts ▸ List.mem_cons_self
      exact absurd (Nat.isDigit_of_mem_toDigits (by decide) (by decide) minus) (by decide)
    next =>
      rw [number, Option.map_some, Int.ofNat_eq_natCast, Int.natAbs_of_nonneg nonnegative]
  · rw [if_neg nonnegative, integer?, decimal?_toDigits, Option.map_some, Int.negOfNat_eq]
    exact congrArg some (by rw [Int.ofNat_eq_natCast]; omega)

/-- The code of a literal, by its signed integer. -/
theorem toNat_code_eq (literal : Literal) :
    literal.code.toNat = 2 * literal.toInt.natAbs + if 0 < literal.toInt then 0 else 1 := by
  have nonzero : literal.code.toNat ≠ 0 :=
    fun zero => literal.code_ne_zero (UInt32.toNat_inj.1 zero)
  unfold Literal.toInt
  rw [Literal.isPositive_eq, Literal.var]
  by_cases even : literal.code.toNat % 2 = 0
  · simp only [even, decide_true, if_true]
    split <;> omega
  · simp only [even, decide_false, Bool.false_eq_true, if_false]
    split <;> omega

/-- A literal is found by its signed integer, and by no other. -/
theorem literalOf?_eq_some_iff : literalOf? value = some literal ↔ literal.toInt = value := by
  have code := toNat_code_eq literal
  have bound : (if 0 < value then 0 else 1) ≤ 1 := by split <;> decide
  unfold literalOf?
  constructor
  · intro found
    obtain ⟨small, same⟩ := Option.ite_none_right_eq_some.1 found
    have given : literal.code.toNat = 2 * value.natAbs + if 0 < value then 0 else 1 := by
      rw [← Option.some.inj same]
      exact Literal.toNat_code_ofNat (by split <;> omega) (by omega)
    split at code <;> split at given <;> omega
  · rintro rfl
    have below : literal.code.toNat < UInt32.size := literal.code.toNat_lt
    have positive : 0 < literal.code.toNat := by split at code <;> omega
    have small : 2 * literal.toInt.natAbs + 1 < UInt32.size := by
      simp only [UInt32.size] at below ⊢
      split at code <;> omega
    rw [if_pos small]
    refine congrArg some (Literal.ext (UInt32.toNat_inj.1 ?_))
    rw [← code]
    exact Literal.toNat_code_ofNat positive below

/-- What a word is made of. -/
theorem mem_word {letter : Char} (member : letter ∈ word literal) :
    letter = '-' ∨ letter.isDigit = true := by
  rw [word, toList_toString] at member
  split at member
  next => exact .inr (Nat.isDigit_of_mem_toDigits (by decide) (by decide) member)
  next =>
    rcases List.mem_cons.1 member with minus | digit
    · exact .inl minus
    · exact .inr (Nat.isDigit_of_mem_toDigits (by decide) (by decide) digit)

/-- What a clause is made of. -/
theorem mem_body {letter : Char} {clause : List Literal} (member : letter ∈ body clause) :
    letter = ' ' ∨ letter = '-' ∨ letter.isDigit = true := by
  rcases List.mem_append.1 member with inWords | zero
  · obtain ⟨_, written, inWord⟩ := List.mem_flatMap.1 inWords
    obtain ⟨literal, _, rfl⟩ := List.mem_map.1 written
    rcases List.mem_append.1 inWord with letter | blank
    · exact .inr (mem_word letter)
    · exact .inl (List.mem_singleton.1 blank)
  · obtain rfl := List.mem_singleton.1 zero
    exact .inr (.inr rfl)

/-- A clause is read as it was written. -/
theorem clause?_body (clause : List Literal) : clause? (body clause) = some clause := by
  have noBlank : ∀ piece ∈ clause.map word, ' ' ∉ piece := by
    intro piece written blank
    obtain ⟨literal, _, rfl⟩ := List.mem_map.1 written
    exact absurd (mem_word blank) (by decide)
  have literals (literal : Literal) : (integer? (word literal)).bind literalOf? = some literal := by
    rw [word, integer?_toString, Option.bind_some]
    exact literalOf?_eq_some_iff.2 rfl
  rw [clause?, body, piecesBefore?_flatMap noBlank (by decide), Option.bind_eq_bind,
    Option.bind_some, mapM_map_of_reads literals]

/-- A step is read as it was written: an addition does not start with the mark of a removal. -/
theorem step?_line (step : ProofStep) : step? (line step) = some step := by
  cases step with
  | added clause =>
    change step? (body clause) = _
    unfold step?
    split
    next rest starts =>
      have marked : 'd' ∈ body clause := starts ▸ List.mem_cons_self
      exact absurd (mem_body marked) (by decide)
    next => rw [clause?_body, Option.map_some]
  | removed clause => rw [line, step?, clause?_body, Option.map_some]

/-- A line has no line end in it. -/
theorem newline_not_mem_line (step : ProofStep) : '\n' ∉ line step := by
  intro ended
  cases step with
  | added clause => exact absurd (mem_body ended) (by decide)
  | removed clause =>
    have inBody : '\n' ∈ body clause := by simpa [line] using ended
    exact absurd (mem_body inBody) (by decide)

/-- The pieces of a step make its line. -/
theorem toList_pieces (step : ProofStep) :
    (String.join step.pieces).toList = line step ++ ['\n'] := by
  cases step <;>
    simp [ProofStep.pieces, ProofStep.mark, ProofStep.literals, line, body, word,
      List.flatMap_map]

/-- The lines of some steps are read as these steps. -/
theorem read?_join (steps : List ProofStep) :
    read? (String.join (steps.map fun step => String.join step.pieces)) = some steps := by
  have lines : (String.join (steps.map fun step => String.join step.pieces)).toList =
      (steps.map line).flatMap (· ++ ['\n']) ++ [] := by
    rw [String.toList_join, List.append_nil, List.flatMap_map, List.flatMap_map]
    exact congrArg (steps.flatMap ·) (funext toList_pieces)
  have whole : ∀ piece ∈ steps.map line, '\n' ∉ piece := by
    intro piece written
    obtain ⟨step, _, rfl⟩ := List.mem_map.1 written
    exact newline_not_mem_line step
  rw [read?, lines, piecesBefore?_flatMap whole (by decide), Option.bind_eq_bind, Option.bind_some,
    mapM_map_of_reads step?_line]

/-- The text of a proof is read back as its steps. With a receiver that takes everything, any steps
are written and the writer is closed; then reading what the receiver has, line by line, gives these
steps in order, each with its literals in order. So different steps have different texts. -/
theorem decodes_written :
    (∀ steps : List ProofStep,
      read? (steps.foldl ProofWriter.write { accepting := true }).close.written = some steps) ∧
    ∀ steps others : List ProofStep, steps ≠ others →
      (steps.foldl ProofWriter.write { accepting := true }).close.written ≠
        (others.foldl ProofWriter.write { accepting := true }).close.written := by
  have reads (steps : List ProofStep) :
      read? (steps.foldl ProofWriter.write { accepting := true }).close.written = some steps := by
    rw [ProofWriter.written_of_accepting, read?_join]
  refine ⟨reads, fun steps others different same => different (Option.some.inj ?_)⟩
  rw [← reads steps, same, reads others]

/-- A zero inside a line is a literal, and the line of the empty clause is a zero alone. -/
example :
    let steps : List ProofStep :=
      [.added [.ofInt 1, .ofInt (-2)], .removed [.ofInt (-2147483648), .ofInt 3], .added []]
    (steps.foldl ProofWriter.write { accepting := true }).close.written =
      "1 -2 0\nd 0 3 0\n0\n" ∧ read? "1 -2 0\nd 0 3 0\n0\n" = some steps := by
  decide +kernel

end ProofText

end CnfSimplifier
