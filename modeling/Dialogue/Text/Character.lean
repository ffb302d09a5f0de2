/-!
# Characters

A *blank* is a character with the Unicode property White_Space. A *gap* is what may stand
between two lexemes of a script: blanks and line comments, in any number. `skip` removes the
leading gap of a text, `skipBlanks` only its leading blanks. In strings, a character can be given
by the four hexadecimal digits of its code.
-/

namespace Dialogue.Text

/-! ## Blanks and gaps -/

/-- The code points with the property White_Space, as closed ranges in increasing order. -/
def blankRanges : List (Nat × Nat) :=
  [(0x09, 0x0D), (0x20, 0x20), (0x85, 0x85), (0xA0, 0xA0), (0x1680, 0x1680), (0x2000, 0x200A),
   (0x2028, 0x2029), (0x202F, 0x202F), (0x205F, 0x205F), (0x3000, 0x3000)]

/-- Whether a character is a blank. -/
def isBlank (c : Char) : Bool :=
  blankRanges.any fun range => range.1 ≤ c.toNat && c.toNat ≤ range.2

/-- Drops the leading blanks of a text. -/
def skipBlanks (text : List Char) : List Char :=
  text.dropWhile isBlank

mutual

/-- Drops the leading gap of a text: blanks, and comments that start with `//`. -/
def skip : List Char → List Char
  | [] => []
  | '/' :: '/' :: rest => skipComment rest
  | c :: rest => if isBlank c then skip rest else c :: rest

/-- Drops the remainder of a comment, which a newline ends, and the gap that follows it. -/
def skipComment : List Char → List Char
  | [] => []
  | c :: rest => if c = '\n' then skip rest else skipComment rest

end

/-! ## Hexadecimal digits -/

/-- A hexadecimal digit, in lower case. -/
def hexDigit (n : Nat) : Char := Nat.digitChar n

/-- The value of a hexadecimal digit, in either case. -/
def hexValue? (c : Char) : Option Nat :=
  if '0' ≤ c ∧ c ≤ '9' then some (c.toNat - '0'.toNat)
  else if 'a' ≤ c ∧ c ≤ 'f' then some (c.toNat - 'a'.toNat + 10)
  else if 'A' ≤ c ∧ c ≤ 'F' then some (c.toNat - 'A'.toNat + 10)
  else none

/-- The number that four hexadecimal digits stand for. -/
def hexCode? (a b c d : Char) : Option Nat := do
  let a ← hexValue? a
  let b ← hexValue? b
  let c ← hexValue? c
  let d ← hexValue? d
  some (((a * 16 + b) * 16 + c) * 16 + d)

/-- What a reader puts in the place of a code that no character has. -/
def replacementChar : Char := Char.ofNat 0xFFFD

/-- The character with a code; a code that no character has stands for U+FFFD. -/
def charOfCode (code : Nat) : Char :=
  if code.isValidChar then Char.ofNat code else replacementChar

/-- Every digit below sixteen is read back. -/
theorem hexValue?_hexDigit : ∀ n < 16, hexValue? (hexDigit n) = some n := by decide

/-- A number below `256` is read back from two zeros and its two hexadecimal digits. -/
theorem hexCode?_hexDigit {n : Nat} (h : n < 256) :
    hexCode? '0' '0' (hexDigit (n / 16)) (hexDigit (n % 16)) = some n := by
  have hzero : hexValue? '0' = some 0 := rfl
  have hhigh := hexValue?_hexDigit (n / 16) (by omega)
  have hlow := hexValue?_hexDigit (n % 16) (by omega)
  have hsum : ((0 * 16 + 0) * 16 + n / 16) * 16 + n % 16 = n := by omega
  unfold hexCode?
  rw [hzero, hhigh, hlow]
  exact congrArg some hsum

end Dialogue.Text
