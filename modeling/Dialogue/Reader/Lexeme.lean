import Dialogue.Number.Decimal
import Dialogue.Reader.Fault
import Dialogue.Text.Character

/-!
# Lexemes

The smallest parts of a script: fixed characters and words, identifiers, numerals and strings.
No function here skips a gap before what it reads, except where a blank is required.
-/

namespace Dialogue

open Text (isBlank skip hexCode? charOfCode)

namespace Reader

/-! ## Fixed texts -/

/-- What follows a character, if the text starts with it. -/
def eat? (c : Char) : List Char → Option (List Char)
  | [] => none
  | d :: rest => if d = c then some rest else none

/-- What follows a fixed text, if the text starts with it. -/
def eatText? : List Char → List Char → Option (List Char)
  | [], rest => some rest
  | _ :: _, [] => none
  | c :: cs, d :: rest => if d = c then eatText? cs rest else none

/-- Reads a character. -/
def expect (c : Char) (text : List Char) : Except Fault (List Char) :=
  match eat? c text with
  | some rest => .ok rest
  | none => fault (.expected c.toString) text

/-- Reads a blank and the gap that it starts. -/
def expectBlank (after : String) : List Char → Except Fault (List Char)
  | [] => fault (.expectedBlank after) []
  | c :: rest => if isBlank c then .ok (skip rest) else fault (.expectedBlank after) (c :: rest)

/-! ## Words -/

/-- Whether a character can start a word: an ASCII letter or an underscore. -/
def isWordStart (c : Char) : Bool := c.isAlpha || c == '_'

/-- Whether a character can go on a word: an ASCII letter or digit, or an underscore. -/
def isWordPart (c : Char) : Bool := c.isAlphanum || c == '_'

/-- The longest word at the front of a text, and what follows it. -/
def word? : List Char → Option (String × List Char)
  | [] => none
  | c :: rest =>
    if isWordStart c then
      some (String.ofList (c :: rest.takeWhile isWordPart), rest.dropWhile isWordPart)
    else none

/-- What follows a given word, if it is the longest word at the front of a text. -/
def eatWord? (word : String) (text : List Char) : Option (List Char) :=
  match word? text with
  | some (actual, rest) => if actual = word then some rest else none
  | none => none

/-- Reads a given word. -/
def expectWord (word : String) (text : List Char) : Except Fault (List Char) :=
  match eatWord? word text with
  | some rest => .ok rest
  | none => fault (.expectedWord word) text

/-- Reads an identifier. -/
def identifier : Reader String := fun text =>
  match word? text with
  | some found => .ok found
  | none => fault .expectedIdentifier text

/-! ## Numerals -/

/-- Whether a character can start a numeral. -/
def isNumeralStart (c : Char) : Bool := c == '-' || c == '.' || c.isDigit

/-- Whether a character can go on a numeral. -/
def isNumeralPart (c : Char) : Bool := c.isDigit || c == '.'

/-- The run of digits and points at the front of a text, after an optional sign, and what follows
it. -/
def numeralRun? (text : List Char) : Option (List Char × List Char) :=
  let sign := text.take 1 |>.filter (· == '-')
  let body := text.drop sign.length
  if (body.takeWhile isNumeralPart).isEmpty then none
  else some (sign ++ body.takeWhile isNumeralPart, body.dropWhile isNumeralPart)

/-- Reads a numeral: its text as written, and its value. -/
def numeral : Reader (List Char × Double) := fun text =>
  match numeralRun? text with
  | none => fault .expectedNumber text
  | some (run, rest) =>
    match Numeral.ofText? run with
    | some found => .ok ((run, found.toDouble), rest)
    | none => fault (.invalidNumber (String.ofList run)) text

/-! ## Strings -/

/-- The character that a backslash and a character stand for. -/
def unescape (c : Char) : Char :=
  if c = 'b' then '\x08'
  else if c = 'f' then '\x0C'
  else if c = 'n' then '\n'
  else if c = 'r' then '\r'
  else if c = 't' then '\t'
  else c

/-- Puts a character in front of a content that has been read. -/
def withChar (c : Char) (read : Except Fault (List Char × List Char)) :
    Except Fault (List Char × List Char) := do
  let (content, rest) ← read
  .ok (c :: content, rest)

/-- Reads the remainder of a string whose opening quote starts `opening`. A string has to end
before the line does, and an escaped newline is part of it. A code that no character has stands
for U+FFFD. -/
def stringTail (opening : List Char) : Reader (List Char)
  | [] => fault .unterminatedString opening
  | c :: rest =>
    if c = '"' then .ok ([], rest)
    else if c = '\n' then fault .unterminatedString opening
    else if c = '\\' then
      match rest with
      | [] => fault .unterminatedString []
      | 'u' :: digits =>
        match digits with
        | h₁ :: h₂ :: h₃ :: h₄ :: after =>
          match hexCode? h₁ h₂ h₃ h₄ with
          | some code => withChar (charOfCode code) (stringTail opening after)
          | none => fault .invalidEscape (h₁ :: h₂ :: h₃ :: h₄ :: after)
        | short => fault .invalidEscape short
      | escaped :: after => withChar (unescape escaped) (stringTail opening after)
    else withChar c (stringTail opening rest)

/-- Reads a string. -/
def string : Reader String := fun text => do
  let (content, rest) ← stringTail text (← expect '"' text)
  .ok (String.ofList content, rest)

end Reader

end Dialogue
