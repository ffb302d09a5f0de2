import Dialogue.Json.Value
import Dialogue.Number.Decimal
import Dialogue.Text.Character

/-!
# Reading JSON

The value that a JSON text stands for. A number without point and exponent is an integer of any
size; any other number is the nearest double. Reading is bounded by a count of steps, and the
length of the text is always enough.
-/

namespace Dialogue

open Text (hexCode?)

namespace Json

/-! ## Blanks -/

/-- Whether a character may stand between the parts of a JSON text. -/
def isGap (c : Char) : Bool := c == ' ' || c == '\n' || c == '\t' || c == '\r'

/-- Drops what may stand between the parts of a JSON text. -/
def skipGap (text : List Char) : List Char := text.dropWhile isGap

/-! ## Numbers -/

/-- A number as written: a sign, digits, digits after the point, and an exponent. -/
structure NumberText where
  negative : Bool
  whole : List Char
  fraction : Option (List Char)
  exponent : Option Int
  deriving DecidableEq, Repr

/-- Reads one digit or more. -/
def readDigits (text : List Char) : Option (List Char × List Char) :=
  if (text.takeWhile Char.isDigit).isEmpty then none
  else some (text.takeWhile Char.isDigit, text.dropWhile Char.isDigit)

/-- Reads the digits before a point; more than one digit cannot start with zero. -/
def readWhole (text : List Char) : Option (List Char × List Char) := do
  let (digits, rest) ← readDigits text
  if digits.head? = some '0' ∧ digits.length ≠ 1 then none else some (digits, rest)

/-- Reads the digits after a point, if there is one. -/
def readFraction : List Char → Option (Option (List Char) × List Char)
  | '.' :: text => do
    let (digits, rest) ← readDigits text
    some (some digits, rest)
  | text => some (none, text)

/-- Reads the digits of an exponent after its sign. -/
def readPower (negative : Bool) (text : List Char) : Option (Option Int × List Char) := do
  let (digits, rest) ← readDigits text
  some (some (if negative then -(ofDigits digits : Int) else ofDigits digits), rest)

/-- Reads an exponent, if there is one. -/
def readExponent : List Char → Option (Option Int × List Char)
  | c :: text =>
    if c = 'e' ∨ c = 'E' then
      match text with
      | '-' :: text => readPower true text
      | '+' :: text => readPower false text
      | text => readPower false text
    else some (none, c :: text)
  | [] => some (none, [])

/-- Reads a number after its sign. -/
def readUnsigned (negative : Bool) (text : List Char) : Option (NumberText × List Char) := do
  let (whole, text) ← readWhole text
  let (fraction, text) ← readFraction text
  let (exponent, text) ← readExponent text
  some (⟨negative, whole, fraction, exponent⟩, text)

/-- Reads a number. -/
def readNumber : List Char → Option (NumberText × List Char)
  | '-' :: text => readUnsigned true text
  | text => readUnsigned false text

namespace NumberText

/-- The double nearest to a number; powers of ten far out of the range of doubles are cut short. -/
def toDouble (x : NumberText) : Double :=
  let digits := x.whole ++ x.fraction.getD []
  let power := x.exponent.getD 0 - (x.fraction.getD []).length
  let units := ofDigits digits * FiniteDouble.unitsOfOne
  if units = 0 then .finite (.zero x.negative)
  else if 400 < power then .infinite x.negative
  else if power < -(400 + digits.length : Int) then .finite (.zero x.negative)
  else if 0 ≤ power then .round x.negative (units * 10 ^ power.toNat) 1
  else .round x.negative units (10 ^ (-power).toNat)

/-- The value of a number: an integer if it is written as one, where minus zero is not; nothing
if it is out of the range of doubles. -/
def toJson? (x : NumberText) : Option Json :=
  if x.fraction.isNone ∧ x.exponent.isNone ∧ ¬ (x.negative ∧ ofDigits x.whole = 0) then
    some (.integer (if x.negative then -(ofDigits x.whole : Int) else ofDigits x.whole))
  else
    match x.toDouble with
    | .finite value => some (.real value)
    | _ => none

end NumberText

/-! ## Strings -/

/-- The character that a backslash and a character stand for. -/
def unescape? (c : Char) : Option Char :=
  if c = '"' ∨ c = '\\' ∨ c = '/' then some c
  else if c = 'b' then some '\x08'
  else if c = 'f' then some '\x0C'
  else if c = 'n' then some '\n'
  else if c = 'r' then some '\r'
  else if c = 't' then some '\t'
  else none

/-- The character that two codes stand for, which have to be a high and a low surrogate. -/
def ofSurrogates? (high low : Nat) : Option Char :=
  if 0xD800 ≤ high ∧ high < 0xDC00 ∧ 0xDC00 ≤ low ∧ low < 0xE000 then
    some (Char.ofNat (0x10000 + (high - 0xD800) * 0x400 + (low - 0xDC00)))
  else none

/-- Puts a character in front of a content that has been read. -/
def consChar (c : Char) (read : Option (List Char × List Char)) : Option (List Char × List Char) :=
  read.map fun found => (c :: found.1, found.2)

/-- Reads the remainder of a string, after its opening quote. -/
def readString : List Char → Option (List Char × List Char)
  | [] => none
  | c :: rest =>
    if c = '"' then some ([], rest)
    else if c = '\\' then
      match rest with
      | [] => none
      | 'u' :: h₁ :: h₂ :: h₃ :: h₄ :: after =>
        match hexCode? h₁ h₂ h₃ h₄ with
        | none => none
        | some code =>
          if code.isValidChar then consChar (Char.ofNat code) (readString after)
          else
            match after with
            | '\\' :: 'u' :: l₁ :: l₂ :: l₃ :: l₄ :: later =>
              match (hexCode? l₁ l₂ l₃ l₄).bind (ofSurrogates? code) with
              | some found => consChar found (readString later)
              | none => none
            | _ => none
      | escaped :: after =>
        match unescape? escaped with
        | some found => consChar found (readString after)
        | none => none
    else if c.toNat < 0x20 then none
    else consChar c (readString rest)

/-! ## Values -/

/-- What follows a fixed text, if the text starts with it. -/
def afterText? : List Char → List Char → Option (List Char)
  | [], rest => some rest
  | _ :: _, [] => none
  | c :: cs, d :: rest => if d = c then afterText? cs rest else none

/-- Reads a word or a number. -/
def readScalar (text : List Char) : Option (Json × List Char) :=
  match afterText? ['n', 'u', 'l', 'l'] text with
  | some rest => some (.null, rest)
  | none =>
    match afterText? ['t', 'r', 'u', 'e'] text with
    | some rest => some (.bool true, rest)
    | none =>
      match afterText? ['f', 'a', 'l', 's', 'e'] text with
      | some rest => some (.bool false, rest)
      | none => do
        let (number, rest) ← readNumber text
        let value ← number.toJson?
        some (value, rest)

/-- Reads the key of a member and the colon after it. -/
def readKey (text : List Char) : Option (String × List Char) := do
  let rest ← afterText? ['"'] (skipGap text)
  let (key, rest) ← readString rest
  let rest ← afterText? [':'] (skipGap rest)
  some (String.ofList key, rest)

mutual

/-- Reads a value, in at most the given number of steps. -/
def readValue : Nat → List Char → Option (Json × List Char)
  | 0, _ => none
  | n + 1, text =>
    match skipGap text with
    | [] => none
    | c :: rest =>
      if c = '"' then do
        let (content, rest) ← readString rest
        some (.string (String.ofList content), rest)
      else if c = '[' then
        match afterText? [']'] (skipGap rest) with
        | some rest => some (.array [], rest)
        | none => do
          let (value, rest) ← readValue n rest
          let (values, rest) ← readElements n rest
          some (.array (value :: values), rest)
      else if c = '{' then
        match afterText? ['}'] (skipGap rest) with
        | some rest => some (.object [], rest)
        | none => do
          let (key, rest) ← readKey rest
          let (value, rest) ← readValue n rest
          let (members, rest) ← readMembers n [(key, value)] rest
          some (.object members, rest)
      else readScalar (c :: rest)

/-- Reads the further elements of an array, each after a comma, and the closing bracket. -/
def readElements : Nat → List Char → Option (List Json × List Char)
  | 0, _ => none
  | n + 1, text =>
    match skipGap text with
    | ']' :: rest => some ([], rest)
    | ',' :: rest => do
      let (value, rest) ← readValue n rest
      let (values, rest) ← readElements n rest
      some (value :: values, rest)
    | _ => none

/-- Reads the further members of an object, each after a comma, and the closing brace. The last
value of a key wins. -/
def readMembers : Nat → List (String × Json) → List Char →
    Option (List (String × Json) × List Char)
  | 0, _, _ => none
  | n + 1, members, text =>
    match skipGap text with
    | '}' :: rest => some (members, rest)
    | ',' :: rest => do
      let (key, rest) ← readKey rest
      let (value, rest) ← readValue n rest
      readMembers n (insert key value members) rest
    | _ => none

end

/-- The value that a text is, if it is one. -/
def parse? (text : String) : Option Json := do
  let (value, rest) ← readValue (text.length + 1) text.toList
  if (skipGap rest).isEmpty then some value else none

/-! ## Integers of a word -/

mutual

/-- A value in which each integer fits sixty-four bits, signed or not: other integers give way to
the nearest double. -/
def narrow : Json → Json
  | .integer n =>
    if -(2 ^ (63 : Nat) : Int) ≤ n ∧ n < 2 ^ (64 : Nat) then .integer n
    else
      match Double.round (n < 0) (n.natAbs * FiniteDouble.unitsOfOne) 1 with
      | .finite x => .real x
      | _ => .null
  | .array elements => .array (narrowElements elements)
  | .object members => .object (narrowMembers members)
  | value => value

/-- Narrows the elements of an array. -/
def narrowElements : List Json → List Json
  | [] => []
  | value :: values => value.narrow :: narrowElements values

/-- Narrows the members of an object. -/
def narrowMembers : List (String × Json) → List (String × Json)
  | [] => []
  | (key, value) :: members => (key, value.narrow) :: narrowMembers members

end

end Json

end Dialogue
