import Dialogue.Reader.Lexeme
import Dialogue.Text.Position

/-!
# Scanning with a cursor

A reader is a function of the text that remains. A `Scanner` reads the same way from the whole
source and a cursor, a number of bytes that only ever grows by lengths that are known beforehand:
that of a character just seen, of a word, of an operator, of four hexadecimal digits. All it sees of
the source are slices from the cursor on, and a slice at an offset that falls inside a character, or
past the end, does not exist: the scan is then `cut`.

This module has the steps that all scans are made of, and the scans of gaps and lexemes.
-/

namespace Dialogue

open Text (byteLength splitAtByte? isBlank hexValue? charOfCode)

/-! ## Slices -/

namespace Text

/-- The two slices of a text at an offset in bytes, which has to lie in the text or at its end, and
not inside a character. -/
def slices? (offset : Nat) (text : List Char) : Option (List Char × List Char) :=
  if offset ≤ byteLength text then splitAtByte? offset text else none

/-- The slice of a text before an offset. -/
def sliceTo? (offset : Nat) (text : List Char) : Option (List Char) :=
  (slices? offset text).map Prod.fst

/-- The slice of a text from an offset on. -/
def sliceFrom? (offset : Nat) (text : List Char) : Option (List Char) :=
  (slices? offset text).map Prod.snd

/-- The slice of a text between two offsets, which have to come in this order. -/
def slice? (start stop : Nat) (text : List Char) : Option (List Char) :=
  if start ≤ stop then (sliceFrom? start text).bind (sliceTo? (stop - start)) else none

end Text

open Text (sliceTo? sliceFrom? slice?)

/-! ## Scans -/

/-- What a scan comes to: a value and the cursor after it, a cause and the offset where it is
reported, or a slice that does not exist. -/
inductive Scanned (α : Type) where
  | done (value : α) (cursor : Nat)
  | fault (cause : Cause) (offset : Nat)
  | cut
  deriving DecidableEq

/-- A function that reads a value of a source from a cursor on. -/
structure Scanner (α : Type) where
  on : List Char → Nat → Scanned α

namespace Scanner

instance : Monad Scanner where
  pure value := ⟨fun _ cursor => .done value cursor⟩
  bind scan next := ⟨fun source cursor =>
    match scan.on source cursor with
    | .done value cursor => (next value).on source cursor
    | .fault cause offset => .fault cause offset
    | .cut => .cut⟩

variable {α : Type}

/-- A slice of the source, if it exists. -/
def sliced (slice : List Char → Option α) : Scanner α where
  on source cursor :=
    match slice source with
    | some value => .done value cursor
    | none => .cut

/-- The offset in bytes that is read from next. -/
def cursor : Scanner Nat := ⟨fun _ cursor => .done cursor cursor⟩

/-- Moves the cursor by a number of bytes. -/
def advance (bytes : Nat) : Scanner Unit := ⟨fun _ cursor => .done () (cursor + bytes)⟩

/-- Moves the cursor to an offset, to read from there again. -/
def moveTo (offset : Nat) : Scanner Unit := ⟨fun _ _ => .done () offset⟩

/-- Reports a cause at an offset. -/
def faultAt (cause : Cause) (offset : Nat) : Scanner α := ⟨fun _ _ => .fault cause offset⟩

/-- Reports a cause at the cursor. -/
def fault (cause : Cause) : Scanner α := do faultAt cause (← cursor)

/-- A bound above the number of characters of the source. -/
def bound : Scanner Nat := ⟨fun source cursor => .done (source.length + 1) cursor⟩

/-- The slice of the source from the cursor on. -/
def remaining : Scanner (List Char) := do sliced (sliceFrom? (← cursor))

/-- Whether the cursor is at the end of the source. -/
def atEnd : Scanner Bool := ⟨fun source cursor => .done (byteLength source ≤ cursor) cursor⟩

/-- The next character, if there is one. -/
def peek : Scanner (Option Char) := do return (← remaining).head?

/-- Whether the next character is a given one. -/
def sees (c : Char) : Scanner Bool := do return (← peek) == some c

/-- Whether a given text comes next. -/
def startsWith (expected : List Char) : Scanner Bool := do return expected.isPrefixOf (← remaining)

/-- Passes a character, if it comes next, and says whether it did. -/
def eat (c : Char) : Scanner Bool := do
  if ← sees c then
    advance c.utf8Size
    return true
  else return false

/-- Passes a character. -/
def expect (c : Char) : Scanner Unit := do
  if ← eat c then return () else fault (.expected c.toString)

/-- Passes a fixed text. -/
def expectText (expected : String) : Scanner Unit := do
  if ← startsWith expected.toList then advance (byteLength expected.toList)
  else fault (.expected expected)

/-! ## Gaps -/

/-- Passes characters while they satisfy a test. -/
def advanceWhile (test : Char → Bool) : Nat → Scanner Unit
  | 0 => fault .exhausted
  | n + 1 => do
    match ← peek with
    | none => return ()
    | some c =>
      if test c then
        advance c.utf8Size
        advanceWhile test n
      else return ()

/-- Passes blanks and comments in turn. -/
def skipGap : Nat → Scanner Unit
  | 0 => fault .exhausted
  | n + 1 => do
    advanceWhile isBlank (n + 1)
    if ← startsWith ['/', '/'] then
      advanceWhile (· != '\n') (n + 1)
      skipGap n
    else return ()

/-- Passes a gap. -/
def skip : Scanner Unit := do skipGap (← bound)

/-- Passes a gap that starts with a blank. -/
def expectBlank (after : String) : Scanner Unit := do
  match ← peek with
  | none => fault (.expectedBlank after)
  | some c => if isBlank c then skip else fault (.expectedBlank after)

/-! ## Words -/

/-- The longest word that comes next, if there is one. -/
def peekWord : Scanner (Option String) := do return (Reader.word? (← remaining)).map Prod.fst

/-- Whether a given word comes next. -/
def seesWord (word : String) : Scanner Bool := do return (← peekWord) == some word

/-- Passes a given word. -/
def expectWord (word : String) : Scanner Unit := do
  if ← seesWord word then advance (byteLength word.toList) else fault (.expectedWord word)

/-- Reads an identifier. -/
def identifier : Scanner String := do
  match ← peekWord with
  | none => fault .expectedIdentifier
  | some word =>
    advance (byteLength word.toList)
    return word

/-! ## Numerals -/

/-- Reads a numeral. -/
def numeral : Scanner Double := do
  match Reader.numeralRun? (← remaining) with
  | none => fault .expectedNumber
  | some (run, _) =>
    match Numeral.ofText? run with
    | none => fault (.invalidNumber (String.ofList run))
    | some found =>
      advance (byteLength run)
      return found.toDouble

/-! ## Strings -/

/-- The number that hexadecimal digits stand for. -/
def hexNumber? (digits : List Char) : Option Nat :=
  digits.foldlM (fun total c => (hexValue? c).map (total * 16 + ·)) 0

/-- Reads the code of a character, four hexadecimal digits, which are looked for in a slice that
need not exist. -/
def code : Scanner Char := do
  match (sliceTo? 4 (← remaining)).bind hexNumber? with
  | none => fault .invalidEscape
  | some code =>
    advance 4
    return charOfCode code

/-- Reads what follows a backslash in a string. -/
def escaped : Scanner Char := do
  match ← peek with
  | none => fault .unterminatedString
  | some c =>
    advance c.utf8Size
    if c = 'u' then code else return Reader.unescape c

/-- Reads the remainder of a string whose opening quote stands at an offset. -/
def stringTail (opening : Nat) : Nat → Scanner (List Char)
  | 0 => fault .exhausted
  | n + 1 => do
    match ← peek with
    | none => faultAt .unterminatedString opening
    | some c =>
      if c = '\n' then faultAt .unterminatedString opening
      else if c = '"' then
        advance 1
        return []
      else if c = '\\' then
        advance 1
        let c ← escaped
        return c :: (← stringTail opening n)
      else
        advance c.utf8Size
        return c :: (← stringTail opening n)

/-- Reads a string. -/
def string : Scanner String := do
  let opening ← cursor
  expect '"'
  return String.ofList (← stringTail opening (← bound))

end Scanner

end Dialogue
