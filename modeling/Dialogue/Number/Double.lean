/-!
# Double-precision numbers

A `Double` is a number of the IEEE 754 format binary64. A finite one is an integer multiple of
the *unit* `2 ^ -1074`, the least positive number of the format: it is kept as a sign, a
mantissa and an exponent, and stands for `± mantissa * 2 ^ exponent` units. The three proof
fields make the mantissa and the exponent unique, so equality of representations is equality of
numbers, with the two zeros apart.

`Double.round` takes an exact fraction of units to the nearest number of the format, a half to
the even neighbour, and to infinity when the magnitude leaves the format. Every operation on
doubles computes its exact result first and rounds it once.
-/

namespace Dialogue

/-- The power of core is the one that is meant here, whatever further instances are in sight. An
exponent that is a numeral is written with its type, so that no default instance is asked for. -/
scoped instance (priority := 20000) plainPower {α : Type} [NatPow α] : Pow α Nat := instPowNat

/-! ## The numbers of the format -/

/-- A finite number of the format binary64, in units of `2 ^ -1074`. -/
structure FiniteDouble where
  negative : Bool
  mantissa : Nat
  exponent : Nat
  mantissa_lt : mantissa < 2 ^ (53 : Nat)
  exponent_le : exponent ≤ 2045
  normal : exponent = 0 ∨ 2 ^ (52 : Nat) ≤ mantissa
  deriving DecidableEq

/-- A number of the format binary64; all results without a value count as one `nan`. -/
inductive Double where
  | nan
  | infinite (negative : Bool)
  | finite (value : FiniteDouble)
  deriving DecidableEq

namespace FiniteDouble

/-- How many units make the number one. -/
def unitsOfOne : Nat := 2 ^ (1074 : Nat)

/-- The distance from zero, in units. -/
def magnitude (x : FiniteDouble) : Nat := x.mantissa * 2 ^ x.exponent

/-- The signed number of units. -/
def units (x : FiniteDouble) : Int := if x.negative then -x.magnitude else x.magnitude

/-- Zero with a sign. -/
def zero (negative : Bool) : FiniteDouble := ⟨negative, 0, 0, by decide, by decide, by decide⟩

/-- The number with the opposite sign. -/
def neg (x : FiniteDouble) : FiniteDouble := { x with negative := !x.negative }

/-- The integer that the number is, if it is one. -/
def toInt? (x : FiniteDouble) : Option Int :=
  if x.magnitude % unitsOfOne = 0 then
    let whole : Int := (x.magnitude / unitsOfOne : Nat)
    some (if x.negative then -whole else whole)
  else none

end FiniteDouble

namespace Double

/-! ## The interchange encoding -/

/-- The number that a word of 64 bits encodes: a sign bit, eleven bits of exponent and
fifty-two bits of fraction. -/
def ofBits (word : Nat) : Double :=
  let negative := word / 2 ^ (63 : Nat) % 2 = 1
  let field := word / 2 ^ (52 : Nat) % 2 ^ (11 : Nat)
  let fraction := word % 2 ^ (52 : Nat)
  have hfield : field < 2 ^ (11 : Nat) := Nat.mod_lt _ (by decide)
  have hfraction : fraction < 2 ^ (52 : Nat) := Nat.mod_lt _ (by decide)
  if hlast : field = 2047 then
    if fraction = 0 then .infinite negative else .nan
  else if field = 0 then
    .finite ⟨negative, fraction, 0, by omega, by decide, Or.inl rfl⟩
  else
    .finite ⟨negative, 2 ^ (52 : Nat) + fraction, field - 1, by omega, by omega, Or.inr (by omega)⟩

/-- The word that encodes a number; `nan` has many, so none is chosen. -/
def toBits? : Double → Option Nat
  | .nan => none
  | .infinite negative => some ((if negative then 2 ^ (63 : Nat) else 0) + 2047 * 2 ^ (52 : Nat))
  | .finite x =>
    some ((if x.negative then 2 ^ (63 : Nat) else 0) +
      (if x.mantissa < 2 ^ (52 : Nat) then x.mantissa
        else x.exponent * 2 ^ (52 : Nat) + x.mantissa))

end Double

/-! ## Rounding to the nearest double -/

/-- The quotient of two natural numbers rounded to the nearest, a half to the even neighbour. -/
def roundDiv (num den : Nat) : Nat :=
  let quotient := num / den
  let remainder := num % den
  if 2 * remainder < den ∨ 2 * remainder = den ∧ quotient % 2 = 0 then quotient
  else quotient + 1

/-- The exponent with which a magnitude has at most fifty-three bits. -/
def exponentFor (magnitude : Nat) : Nat := magnitude.log2 - 52

/-- The rounded quotient is the floor or its successor. -/
theorem roundDiv_eq_or (num den : Nat) :
    roundDiv num den = num / den ∨ roundDiv num den = num / den + 1 := by
  dsimp only [roundDiv]
  split
  · exact Or.inl rfl
  · exact Or.inr rfl

/-- Scaled by its exponent, a magnitude is below `2 ^ 53`. -/
theorem div_exponentFor_lt (magnitude : Nat) :
    magnitude / 2 ^ exponentFor magnitude < 2 ^ (53 : Nat) := by
  rw [Nat.div_lt_iff_lt_mul (Nat.two_pow_pos _), ← Nat.pow_add]
  calc magnitude < 2 ^ (magnitude.log2 + 1) := Nat.lt_log2_self
    _ ≤ 2 ^ (53 + exponentFor magnitude) :=
      Nat.pow_le_pow_right (by decide) (by unfold exponentFor; omega)

/-- A magnitude whose exponent is positive has exactly fifty-three bits once scaled. -/
theorem le_div_exponentFor {magnitude : Nat} (h : exponentFor magnitude ≠ 0) :
    2 ^ (52 : Nat) ≤ magnitude / 2 ^ exponentFor magnitude := by
  rw [Nat.le_div_iff_mul_le (Nat.two_pow_pos _), ← Nat.pow_add]
  have hlog : 52 + exponentFor magnitude = magnitude.log2 := by unfold exponentFor at h ⊢; omega
  rw [hlog]
  refine Nat.log2_self_le ?_
  rintro rfl
  exact h (by decide)

/-- The number with a given mantissa and exponent, where a mantissa of `2 ^ 53` carries into the
exponent and an exponent past the format's last gives infinity. -/
def Double.ofScaled (negative : Bool) (mantissa exponent : Nat) (le : mantissa ≤ 2 ^ (53 : Nat))
    (normal : exponent = 0 ∨ 2 ^ (52 : Nat) ≤ mantissa) : Double :=
  if hcarry : mantissa = 2 ^ (53 : Nat) then
    if hlast : exponent + 1 ≤ 2045 then
      .finite ⟨negative, 2 ^ (52 : Nat), exponent + 1, by decide, hlast, Or.inr (Nat.le_refl _)⟩
    else .infinite negative
  else if hlast : exponent ≤ 2045 then
    .finite ⟨negative, mantissa, exponent, by omega, hlast, normal⟩
  else .infinite negative

/-- The double nearest to `± num / den` units. -/
def Double.round (negative : Bool) (num den : Nat) : Double :=
  Double.ofScaled negative (roundDiv num (den * 2 ^ exponentFor (num / den)))
    (exponentFor (num / den))
    (by
      have hlt := div_exponentFor_lt (num / den)
      rw [Nat.div_div_eq_div_mul] at hlt
      rcases roundDiv_eq_or num (den * 2 ^ exponentFor (num / den)) with h | h <;> omega)
    (by
      by_cases h : exponentFor (num / den) = 0
      · exact Or.inl h
      · have hle := le_div_exponentFor h
        rw [Nat.div_div_eq_div_mul] at hle
        rcases roundDiv_eq_or num (den * 2 ^ exponentFor (num / den)) with h' | h' <;> omega)

/-! ## Arithmetic

Sum, difference and product: the exact result, rounded once. An exact sum of zero is positive
unless both summands are negative zeros or numbers of negative sign.
-/

namespace Double

/-- The double nearest to an integer. -/
def ofInt (n : Int) : Double := round (n < 0) (n.natAbs * FiniteDouble.unitsOfOne) 1

/-- Whether a number is one of the two zeros. -/
def isZero : Double → Bool
  | .finite x => x.mantissa == 0
  | _ => false

/-- The number with the opposite sign. -/
def neg : Double → Double
  | .nan => .nan
  | .infinite negative => .infinite (!negative)
  | .finite x => .finite x.neg

/-- The sum: opposite infinities have none, and any other infinity absorbs the other summand. -/
def add : Double → Double → Double
  | .nan, _ => .nan
  | _, .nan => .nan
  | .infinite a, .infinite b => if a = b then .infinite a else .nan
  | .infinite a, .finite _ => .infinite a
  | .finite _, .infinite b => .infinite b
  | .finite x, .finite y =>
    let sum := x.units + y.units
    if sum = 0 then .finite (.zero (x.negative && y.negative))
    else round (sum < 0) sum.natAbs 1

/-- The difference is the sum with the opposite number. -/
def sub (x y : Double) : Double := add x (neg y)

/-- The product: an infinity times zero has none. -/
def mul : Double → Double → Double
  | .nan, _ => .nan
  | _, .nan => .nan
  | .infinite a, .infinite b => .infinite (a != b)
  | .infinite a, .finite y => if y.mantissa = 0 then .nan else .infinite (a != y.negative)
  | .finite x, .infinite b => if x.mantissa = 0 then .nan else .infinite (x.negative != b)
  | .finite x, .finite y =>
    round (x.negative != y.negative) (x.magnitude * y.magnitude) FiniteDouble.unitsOfOne

instance : Neg Double := ⟨neg⟩
instance : Add Double := ⟨add⟩
instance : Sub Double := ⟨sub⟩
instance : Mul Double := ⟨mul⟩

end Double

end Dialogue
