import Dialogue.Number.Double

/-!
# Decimal texts of numbers

A numeral is what a script writes for a number: an optional minus sign, digits, and optionally a
point and more digits, with at least one digit in all. Its value is an exact decimal fraction,
which is rounded once to the nearest double.

The other way round, among the decimals that read back as a given double, `FiniteDouble.shortest`
takes one with the fewest digits, and of those the nearest to the double, an exact tie going to the
even last digit.

Every double has a finite decimal expansion: a unit of `2 ^ -1074` is `5 ^ 1074` times
`10 ^ -1074`. So all comparisons are between natural numbers. A decimal reads back as a double
iff it lies between the midpoints to the two neighbouring doubles, and a midpoint itself does iff
the mantissa is even. Midpoints are whole numbers of quarter units.

How the digits are laid out, with a point or with an exponent, is a `Layout`.
-/

namespace Dialogue

/-! ## Numerals -/

/-- The number that a digit character stands for. -/
def digitValue (c : Char) : Nat := c.toNat - '0'.toNat

/-- The number that a list of digits stands for, the first digit weighing most. -/
def ofDigits (digits : List Char) : Nat :=
  digits.foldl (fun total c => 10 * total + digitValue c) 0

/-- The digits of a number, without leading zeros; zero has one digit. -/
def toDigits (n : Nat) : List Char := Nat.toDigits 10 n

/-- A decimal numeral: its sign and the digits before and after its point. -/
structure Numeral where
  negative : Bool
  whole : List Char
  fraction : List Char
  deriving DecidableEq, Repr

namespace Numeral

/-- The unsigned numeral that a text is, if it is one: digits, at most one point, and at least
one digit. -/
def ofUnsigned? (negative : Bool) (text : List Char) : Option Numeral :=
  let whole := text.takeWhile Char.isDigit
  match text.dropWhile Char.isDigit with
  | [] => if whole.isEmpty then none else some ⟨negative, whole, []⟩
  | point :: fraction =>
    if point = '.' ∧ fraction.all Char.isDigit ∧ ¬ (whole ++ fraction).isEmpty then
      some ⟨negative, whole, fraction⟩
    else none

/-- The numeral that a text is, if it is one. -/
def ofText? : List Char → Option Numeral
  | '-' :: text => ofUnsigned? true text
  | text => ofUnsigned? false text

/-- The double nearest to the value of a numeral. -/
def toDouble (numeral : Numeral) : Double :=
  .round numeral.negative (ofDigits (numeral.whole ++ numeral.fraction) * FiniteDouble.unitsOfOne)
    (10 ^ numeral.fraction.length)

end Numeral

/-! ## The shortest decimal -/

/-- The positive number `significand * 10 ^ exponent`. -/
structure Decimal where
  significand : Nat
  exponent : Int
  deriving DecidableEq, Repr

namespace FiniteDouble

/-- How many parts `10 ^ -1074` make a unit. -/
def partsOfUnit : Nat := 5 ^ (1074 : Nat)

/-- The distance from zero in parts of `10 ^ -1074`. -/
def parts (x : FiniteDouble) : Nat := x.magnitude * partsOfUnit

/-- The midpoint to the next number towards zero, in quarter units: below a power of two the
numbers lie twice as close, except among the least ones. -/
def lowerMidpoint (x : FiniteDouble) : Nat :=
  if x.mantissa = 2 ^ (52 : Nat) ∧ x.exponent ≠ 0 then (4 * x.mantissa - 1) * 2 ^ x.exponent
  else (4 * x.mantissa - 2) * 2 ^ x.exponent

/-- The midpoint to the next number away from zero, in quarter units. -/
def upperMidpoint (x : FiniteDouble) : Nat := (4 * x.mantissa + 2) * 2 ^ x.exponent

/-- Whether a distance from zero, in parts, is read back as a number. -/
def readsBack (x : FiniteDouble) (parts : Nat) : Bool :=
  let low := x.lowerMidpoint * partsOfUnit
  let high := x.upperMidpoint * partsOfUnit
  if x.mantissa % 2 = 0 then low ≤ 4 * parts && 4 * parts ≤ high
  else low < 4 * parts && 4 * parts < high

/-- The multiple of a step, next to the number, that reads back as it; of two the nearer. -/
def onGrid? (x : FiniteDouble) (step : Nat) : Option Nat :=
  let below := x.parts / step
  match x.readsBack (below * step), x.readsBack ((below + 1) * step) with
  | false, false => none
  | true, false => some below
  | false, true => some (below + 1)
  | true, true => some (roundDiv x.parts step)

/-- The shortest decimal that reads back as the number, its sign left out. Seventeen digits
always do. -/
def shortest (x : FiniteDouble) : Decimal :=
  let width := (toDigits x.parts).length
  let found := (List.range 17).findSome? fun used =>
    let places := width - (used + 1)
    (x.onGrid? (10 ^ places)).map fun significand => Decimal.mk significand (places - 1074)
  found.getD ⟨x.parts, -1074⟩

end FiniteDouble

/-! ## Layout -/

/-- Which powers of ten of the leading digit are written with a point alone: those from `least`
to `greatest`. The others are written with an exponent. -/
structure Layout where
  least : Int
  greatest : Int

namespace Layout

/-- A number written with a point, which has digits on both of its sides. -/
def positional (digits : List Char) (power : Int) : List Char :=
  if power < 0 then
    ['0', '.'] ++ List.replicate (-power - 1).toNat '0' ++ digits
  else
    let count := power.toNat + 1
    if digits.length ≤ count then digits ++ List.replicate (count - digits.length) '0' ++ ['.', '0']
    else digits.take count ++ ['.'] ++ digits.drop count

/-- A number written with an exponent, whose sign is always written; a single digit takes no
point. -/
def scientific (digits : List Char) (power : Int) : List Char :=
  let mantissa := match digits with
    | first :: second :: others => first :: '.' :: second :: others
    | _ => digits
  mantissa ++ ['e', if power < 0 then '-' else '+'] ++ toDigits power.natAbs

/-- The text of a positive decimal. -/
def write (layout : Layout) (x : Decimal) : List Char :=
  let all := toDigits x.significand
  let digits := (all.reverse.dropWhile (· == '0')).reverse
  let power := x.exponent + all.length - 1
  if layout.least ≤ power ∧ power ≤ layout.greatest then positional digits power
  else scientific digits power

end Layout

end Dialogue
