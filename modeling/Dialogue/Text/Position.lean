import Dialogue.Text.Character

/-!
# Positions in a text

A place in a text is given by the characters before it and the characters after it. Its
`Position` counts lines from one, columns in characters from zero and offsets in bytes of the
UTF-8 form. An offset in bytes names a place only if it does not fall inside a character.

The lines of a text are the lines that a report quotes: a line ends at a newline, which is not part
of it, nor is a carriage return right before the newline. A last line without a newline counts if it
is not empty.
-/

namespace Dialogue.Text

/-- Where something stands in a text: the line from one, the column in characters from zero,
the offset in bytes from zero. -/
structure Position where
  line : Nat
  column : Nat
  offset : Nat
  deriving DecidableEq, Repr

/-- The number of bytes of a text in UTF-8. -/
def byteLength : List Char → Nat
  | [] => 0
  | c :: text => c.utf8Size + byteLength text

/-- Splits a text at an offset in bytes: at the end if the offset is past it, and nowhere if the
offset falls inside a character. -/
def splitAtByte? (offset : Nat) : List Char → Option (List Char × List Char)
  | [] => some ([], [])
  | c :: rest =>
    if offset = 0 then some ([], c :: rest)
    else if offset < c.utf8Size then none
    else (splitAtByte? (offset - c.utf8Size) rest).map fun parts => (c :: parts.1, parts.2)

/-- What follows the last newline of a text. -/
def lastLine (text : List Char) : List Char :=
  (text.reverse.takeWhile (· != '\n')).reverse

/-- What precedes the first newline of a text. -/
def firstLine (text : List Char) : List Char :=
  text.takeWhile (· != '\n')

/-- The position right after a text. -/
def Position.after (before : List Char) : Position where
  line := before.count '\n' + 1
  column := (lastLine before).length
  offset := byteLength before

/-- The position of an offset in bytes, which is kept as given even when it is past the end. -/
def Position.at? (text : List Char) (offset : Nat) : Option Position :=
  (splitAtByte? offset text).map fun parts => { Position.after parts.1 with offset := offset }

/-- The whole line around the place between two parts of a text. -/
def lineAround (before rest : List Char) : List Char :=
  lastLine before ++ firstLine rest

/-! ## Lines -/

/-- The lines of a text. -/
def lines : List Char → List (List Char)
  | [] => []
  | '\r' :: '\n' :: rest => [] :: lines rest
  | '\n' :: rest => [] :: lines rest
  | c :: rest =>
    match lines rest with
    | [] => [[c]]
    | line :: others => (c :: line) :: others

/-- The line with a number, counted from one; a line that does not exist is empty. -/
def lineNumber (text : List Char) (number : Nat) : List Char :=
  ((lines text)[number - 1]?).getD []

/-! ## Small laws -/

theorem byteLength_append (front back : List Char) :
    byteLength (front ++ back) = byteLength front + byteLength back := by
  induction front with
  | nil => rw [List.nil_append, byteLength, Nat.zero_add]
  | cons c front ih => rw [List.cons_append, byteLength, byteLength, ih, Nat.add_assoc]

/-- A text is split where its front ends in bytes. -/
theorem splitAtByte?_byteLength (front back : List Char) :
    splitAtByte? (byteLength front) (front ++ back) = some (front, back) := by
  induction front with
  | nil =>
    cases back with
    | nil => rfl
    | cons c back => exact if_pos rfl
  | cons c front ih =>
    have hpos : 0 < c.utf8Size := c.utf8Size_pos
    rw [List.cons_append, byteLength, splitAtByte?, if_neg (by omega), if_neg (by omega),
      Nat.add_sub_cancel_left, ih]
    rfl

/-- The text after the last newline holds no newline. -/
theorem newline_notMem_lastLine (text : List Char) : '\n' ∉ lastLine text := by
  intro h
  have hall := List.all_eq_true.1 List.all_takeWhile '\n' (List.mem_reverse.1 h)
  simp at hall

end Dialogue.Text
