import Dialogue.Number.Decimal
import Dialogue.Text.Character

/-!
# JSON values and their texts

The values that programs for the dialogue runtime and machine-readable reports are made of. An
object keeps its members in order. Numbers are integers, or finite doubles: JSON has no text for
the others.

A value has two texts: the compact one has no blanks outside strings, the indented one places each
element of an array and each member of an object on a line of its own.
-/

namespace Dialogue

open Text (hexDigit)

/-- A JSON value. -/
inductive Json where
  | null
  | bool (value : Bool)
  | integer (value : Int)
  | real (value : FiniteDouble)
  | string (value : String)
  | array (elements : List Json)
  | object (members : List (String × Json))
  deriving Inhabited

namespace Json

/-- The members of an object with one member set: an old key keeps its place and takes the new
value, a new key comes last. -/
def insert (key : String) (value : Json) : List (String × Json) → List (String × Json)
  | [] => [(key, value)]
  | member :: members =>
    if member.1 = key then (key, value) :: members else member :: insert key value members

/-- A member with a new key comes last. -/
theorem insert_of_not_mem {key : String} {members : List (String × Json)}
    (h : key ∉ members.map Prod.fst) (value : Json) :
    insert key value members = members ++ [(key, value)] := by
  induction members with
  | nil => rfl
  | cons member members ih =>
    rw [List.map_cons, List.mem_cons, not_or] at h
    rw [insert, if_neg (Ne.symm h.1), ih h.2, List.cons_append]

/-- The value of a member of an object. -/
def member? (key : String) : Json → Option Json
  | .object members => members.lookup key
  | _ => none

/-! ## Scalars -/

/-- Doubles are written with a point alone while their leading digit stands for a power of ten
from -5 to 15. -/
def numberLayout : Layout := ⟨-5, 15⟩

/-- The text of a sign. -/
def signText (negative : Bool) : List Char := if negative then ['-'] else []

/-- The text of an integer. -/
def integerText (n : Int) : List Char := signText (n < 0) ++ toDigits n.natAbs

/-- The text of a double that is written as one: the fewest digits that read back. -/
def realText (x : FiniteDouble) : List Char :=
  signText x.negative ++
    (if x.mantissa = 0 then ['0', '.', '0'] else numberLayout.write x.shortest)

/-- How a character is written inside a string: quotes, backslashes and control characters are
escaped, all others stand for themselves. -/
def escape (c : Char) : List Char :=
  if c = '"' then ['\\', '"']
  else if c = '\\' then ['\\', '\\']
  else if c = '\x08' then ['\\', 'b']
  else if c = '\x0C' then ['\\', 'f']
  else if c = '\n' then ['\\', 'n']
  else if c = '\r' then ['\\', 'r']
  else if c = '\t' then ['\\', 't']
  else if c.toNat < 0x20 then
    ['\\', 'u', '0', '0', hexDigit (c.toNat / 16), hexDigit (c.toNat % 16)]
  else [c]

/-- The text of a string. -/
def stringText (text : List Char) : List Char := '"' :: text.flatMap escape ++ ['"']

/-- The text of a truth value. -/
def boolText (b : Bool) : List Char :=
  if b then ['t', 'r', 'u', 'e'] else ['f', 'a', 'l', 's', 'e']

/-- The text of null. -/
def nullText : List Char := ['n', 'u', 'l', 'l']

/-! ## Compact text

Texts of values are built from their end: each function puts a text in front of what follows.
-/

mutual

/-- The text of a value without blanks, and what follows it. -/
def compactText : Json → List Char → List Char
  | .null, rest => nullText ++ rest
  | .bool b, rest => boolText b ++ rest
  | .integer n, rest => integerText n ++ rest
  | .real x, rest => realText x ++ rest
  | .string s, rest => stringText s.toList ++ rest
  | .array [], rest => '[' :: ']' :: rest
  | .array (value :: values), rest =>
    '[' :: compactText value (compactElements values (']' :: rest))
  | .object [], rest => '{' :: '}' :: rest
  | .object ((key, value) :: members), rest =>
    '{' :: (stringText key.toList ++ ':' ::
      compactText value (compactMembers members ('}' :: rest)))

/-- The further elements of an array, each after a comma. -/
def compactElements : List Json → List Char → List Char
  | [], rest => rest
  | value :: values, rest => ',' :: compactText value (compactElements values rest)

/-- The further members of an object, each after a comma. -/
def compactMembers : List (String × Json) → List Char → List Char
  | [], rest => rest
  | (key, value) :: members, rest =>
    ',' :: (stringText key.toList ++ ':' :: compactText value (compactMembers members rest))

end

/-! ## Indented text -/

/-- A line break and the indentation of a depth, two spaces for each level. -/
def newline (depth : Nat) : List Char := '\n' :: List.replicate (2 * depth) ' '

mutual

/-- The indented text of a value that stands at a depth, and what follows it. -/
def indentedText (depth : Nat) : Json → List Char → List Char
  | .null, rest => nullText ++ rest
  | .bool b, rest => boolText b ++ rest
  | .integer n, rest => integerText n ++ rest
  | .real x, rest => realText x ++ rest
  | .string s, rest => stringText s.toList ++ rest
  | .array [], rest => '[' :: ']' :: rest
  | .array (value :: values), rest =>
    '[' :: (newline (depth + 1) ++ indentedText (depth + 1) value
      (indentedElements (depth + 1) values (newline depth ++ ']' :: rest)))
  | .object [], rest => '{' :: '}' :: rest
  | .object ((key, value) :: members), rest =>
    '{' :: (newline (depth + 1) ++ stringText key.toList ++ ':' :: ' ' ::
      indentedText (depth + 1) value
        (indentedMembers (depth + 1) members (newline depth ++ '}' :: rest)))

/-- The further elements of an array, each on a line of its own. -/
def indentedElements (depth : Nat) : List Json → List Char → List Char
  | [], rest => rest
  | value :: values, rest =>
    ',' :: (newline depth ++ indentedText depth value (indentedElements depth values rest))

/-- The further members of an object, each on a line of its own. -/
def indentedMembers (depth : Nat) : List (String × Json) → List Char → List Char
  | [], rest => rest
  | (key, value) :: members, rest =>
    ',' :: (newline depth ++ stringText key.toList ++ ':' :: ' ' ::
      indentedText depth value (indentedMembers depth members rest))

end

/-- The text of a value without blanks. -/
def compact (value : Json) : String := String.ofList (compactText value [])

/-- The text of a value with one element or member a line. -/
def indented (value : Json) : String := String.ofList (indentedText 0 value [])

end Json

end Dialogue
