import Dialogue.Proofs.Written.Numeral
import Mathlib.Data.Int.Order.Basic

/-!
# Doubles that are integers

An integer below `2 ^ 53` in magnitude is a double exactly (`FiniteDouble.exists_magnitude_eq`), and
a double is taken to an integer only if it is one (`FiniteDouble.toInt?_eq_some_iff`), with nothing
lost in a word of 64 bits (`FiniteDouble.toWord_of_value_eq`). The sum and the product of such
doubles are the doubles nearest to the sum and the product of the integers (`Double.ofInt_add`,
`Double.ofInt_mul`).
-/

namespace Dialogue

namespace FiniteDouble

theorem unitsOfOne_ne_zero : unitsOfOne ≠ 0 := by
  have hpos : ∀ n : Nat, 2 ^ n ≠ 0 := fun n => Nat.ne_of_gt (Nat.two_pow_pos n)
  rw [unitsOfOne]
  apply hpos

theorem magnitude_eq_zero_iff (x : FiniteDouble) : x.magnitude = 0 ↔ x.mantissa = 0 := by
  rw [magnitude, Nat.mul_eq_zero]
  have hpow := Nat.two_pow_pos x.exponent
  omega

theorem toInt?_of_mantissa_eq_zero {x : FiniteDouble} (h : x.mantissa = 0) :
    x.toInt? = some 0 := by
  rw [toInt?, (x.magnitude_eq_zero_iff).2 h]
  simp

/-- An integer is the magnitude of its number, in units, with the number's sign. -/
theorem toInt?_eq_some {x : FiniteDouble} {n : Int} (h : x.toInt? = some n) :
    n.natAbs * unitsOfOne = x.magnitude ∧
      n = if x.negative then -(n.natAbs : Int) else n.natAbs := by
  rw [toInt?] at h
  split at h
  · rename_i hwhole
    have hmagnitude := Nat.div_mul_cancel (Nat.dvd_of_mod_eq_zero hwhole)
    have hn := Option.some.inj h
    have hnat : n.natAbs = x.magnitude / unitsOfOne := by
      rw [← hn]
      split
      · rw [Int.natAbs_neg, Int.natAbs_natCast]
      · rw [Int.natAbs_natCast]
    rw [hnat]
    exact ⟨hmagnitude, hn.symm⟩
  · cases h

/-- The rational number that a double is. -/
def value (x : FiniteDouble) : Rat := (x.units : Rat) / (unitsOfOne : Rat)

/-- The conversion to a signed word of 64 bits: what stands after the point is cut off, and what is
out of range becomes the bound that it passes. -/
def toWord (x : FiniteDouble) : Int :=
  max (-(2 ^ (63 : Nat))) (min (2 ^ (63 : Nat) - 1) (x.units.tdiv unitsOfOne))

theorem value_eq_iff {x : FiniteDouble} {n : Int} :
    x.value = n ↔ x.units = n * unitsOfOne := by
  rw [value, ← Rat.mkRat_eq_div, ← Rat.mkRat_one,
    Rat.mkRat_eq_iff unitsOfOne_ne_zero Nat.one_ne_zero, Int.natCast_one, Int.mul_one]

theorem natAbs_units (x : FiniteDouble) : x.units.natAbs = x.magnitude := by
  unfold units
  split
  · rw [Int.natAbs_neg, Int.natAbs_natCast]
  · rw [Int.natAbs_natCast]

theorem units_of_magnitude_eq {x : FiniteDouble} {m : Nat} (h : x.magnitude = m * unitsOfOne) :
    x.units = (if x.negative then -(m : Int) else m) * unitsOfOne := by
  rw [units, h, Int.natCast_mul]
  split
  · rw [Int.neg_mul]
  · rfl

theorem toInt?_eq_some_iff {x : FiniteDouble} {n : Int} : x.toInt? = some n ↔ x.value = n := by
  rw [value_eq_iff]
  constructor
  · intro h
    obtain ⟨hmagnitude, hsign⟩ := toInt?_eq_some h
    rw [units_of_magnitude_eq hmagnitude.symm, ← hsign]
  · intro h
    have hmagnitude : x.magnitude = n.natAbs * unitsOfOne := by
      rw [← natAbs_units, h, Int.natAbs_mul, Int.natAbs_natCast]
    have hsign : (if x.negative then -(n.natAbs : Int) else n.natAbs) = n := by
      apply Int.eq_of_mul_eq_mul_right (Int.natCast_ne_zero.2 unitsOfOne_ne_zero)
      rw [← units_of_magnitude_eq hmagnitude, h]
    have hpos : 0 < unitsOfOne := Nat.pos_of_ne_zero unitsOfOne_ne_zero
    rw [toInt?, hmagnitude, if_pos (Nat.mul_mod_left _ _), Nat.mul_div_cancel _ hpos]
    exact congrArg some hsign

/-- Below `2 ^ 53` every natural number is the magnitude of a double, with either sign. -/
theorem exists_magnitude_eq {m : Nat} (h : m < 2 ^ (53 : Nat)) (negative : Bool) :
    ∃ x : FiniteDouble, x.negative = negative ∧ x.magnitude = m * unitsOfOne := by
  by_cases hzero : m = 0
  · refine ⟨.zero negative, rfl, ?_⟩
    rw [hzero, Nat.zero_mul]
    rfl
  · -- the mantissa is the number with its first bit moved to the highest place
    have hlog : m.log2 < 53 := (Nat.log2_lt hzero).2 h
    have hlow : 2 ^ (52 : Nat) ≤ m * 2 ^ (52 - m.log2) := by
      calc 2 ^ (52 : Nat) = 2 ^ m.log2 * 2 ^ (52 - m.log2) := by rw [← Nat.pow_add]; congr 1; omega
        _ ≤ m * 2 ^ (52 - m.log2) := Nat.mul_le_mul_right _ (Nat.log2_self_le hzero)
    have hhigh : m * 2 ^ (52 - m.log2) < 2 ^ (53 : Nat) := by
      calc m * 2 ^ (52 - m.log2) < 2 ^ (m.log2 + 1) * 2 ^ (52 - m.log2) :=
            Nat.mul_lt_mul_of_pos_right Nat.lt_log2_self (Nat.two_pow_pos _)
        _ = 2 ^ (53 : Nat) := by rw [← Nat.pow_add]; congr 1; omega
    have hexponent : 52 - m.log2 + (1022 + m.log2) = 1074 := by omega
    refine ⟨⟨negative, m * 2 ^ (52 - m.log2), 1022 + m.log2, hhigh, by omega, Or.inr hlow⟩, rfl, ?_⟩
    change m * 2 ^ (52 - m.log2) * 2 ^ (1022 + m.log2) = m * unitsOfOne
    rw [Nat.mul_assoc, ← Nat.pow_add]
    exact congrArg (fun e => m * 2 ^ e) hexponent

/-- A small integer fits a word, and the conversion gives it. -/
theorem toWord_of_value_eq {x : FiniteDouble} {n : Int} (h : x.value = n)
    (hn : n.natAbs < 2 ^ (53 : Nat)) : x.toWord = n := by
  have hne : (unitsOfOne : Int) ≠ 0 := Int.natCast_ne_zero.2 unitsOfOne_ne_zero
  rw [toWord, value_eq_iff.1 h, Int.mul_tdiv_cancel n hne]
  omega

end FiniteDouble

/-! ## Arithmetic on integers -/

namespace Double

open FiniteDouble

/-- A small integer is its nearest double. -/
theorem exists_ofInt {k : Int} (h : k.natAbs < 2 ^ (53 : Nat)) :
    ∃ x : FiniteDouble, ofInt k = .finite x ∧ x.negative = decide (k < 0) ∧
      x.magnitude = k.natAbs * unitsOfOne := by
  obtain ⟨x, hnegative, hmagnitude⟩ := exists_magnitude_eq h (decide (k < 0))
  refine ⟨x, ?_, hnegative, hmagnitude⟩
  rw [ofInt, ← hmagnitude, ← hnegative, round_magnitude]

theorem ofInt_zero : ofInt 0 = .finite (.zero false) := by
  rw [ofInt, Int.natAbs_zero, Nat.zero_mul]
  exact round_magnitude (.zero false)

theorem units_of_sign {k : Int} {x : FiniteDouble} (hnegative : x.negative = decide (k < 0))
    (hmagnitude : x.magnitude = k.natAbs * unitsOfOne) : x.units = k * unitsOfOne := by
  have hsign : (if k < 0 then -(k.natAbs : Int) else k.natAbs) = k := by omega
  rw [units_of_magnitude_eq hmagnitude, hnegative]
  simp only [decide_eq_true_eq, hsign]

theorem isZero_ofInt {k : Int} (h : k.natAbs < 2 ^ (53 : Nat)) (hne : k ≠ 0) :
    (ofInt k).isZero = false := by
  obtain ⟨x, hx, -, hmagnitude⟩ := exists_ofInt h
  rw [hx, isZero, beq_eq_false_iff_ne, Ne, ← magnitude_eq_zero_iff, hmagnitude]
  exact Nat.mul_ne_zero (Int.natAbs_ne_zero.2 hne) unitsOfOne_ne_zero

/-- A sum that is an integer other than zero is the double nearest to that integer. -/
theorem add_eq_ofInt {x y : FiniteDouble} {n : Int} (h : x.units + y.units = n * unitsOfOne)
    (hne : n ≠ 0) : finite x + finite y = ofInt n := by
  have hpos : (0 : Int) < unitsOfOne := Int.natCast_pos.2 (Nat.pos_of_ne_zero unitsOfOne_ne_zero)
  have hnonzero : n * unitsOfOne ≠ 0 := Int.mul_ne_zero hne (Int.ne_of_gt hpos)
  have hsign : n * (unitsOfOne : Int) < 0 ↔ n < 0 := by
    rw [Int.mul_neg_iff]
    omega
  change add (.finite x) (.finite y) = _
  simp only [add, h, if_neg hnonzero, hsign, Int.natAbs_mul, Int.natAbs_natCast]
  rfl

/-- Adding small integers gives the double nearest to their sum, unless the sum is zero. -/
theorem ofInt_add {a b : Int} (ha : a.natAbs < 2 ^ (53 : Nat)) (hb : b.natAbs < 2 ^ (53 : Nat))
    (hne : a + b ≠ 0) : ofInt a + ofInt b = ofInt (a + b) := by
  obtain ⟨x, hx, hxsign, hxmagnitude⟩ := exists_ofInt ha
  obtain ⟨y, hy, hysign, hymagnitude⟩ := exists_ofInt hb
  rw [hx, hy]
  refine add_eq_ofInt ?_ hne
  rw [units_of_sign hxsign hxmagnitude, units_of_sign hysign hymagnitude, Int.add_mul]

/-- Adding a small integer to zero gives that integer. -/
theorem zero_add_ofInt (negative : Bool) {k : Int} (h : k.natAbs < 2 ^ (53 : Nat)) (hne : k ≠ 0) :
    finite (.zero negative) + ofInt k = ofInt k := by
  obtain ⟨x, hx, hsign, hmagnitude⟩ := exists_ofInt h
  have hzero : (FiniteDouble.zero negative).units = 0 := by
    cases negative <;> rfl
  rw [hx]
  refine (add_eq_ofInt ?_ hne).trans hx
  rw [hzero, Int.zero_add, units_of_sign hsign hmagnitude]

theorem neg_round (negative : Bool) (num den : Nat) :
    neg (round negative num den) = round (!negative) num den := by
  rw [round, round, ofScaled, ofScaled]
  split
  · split <;> rfl
  · split <;> rfl

theorem neg_ofInt {k : Int} (hne : k ≠ 0) : neg (ofInt k) = ofInt (-k) := by
  have hsign : (!decide (k < 0)) = decide (-k < 0) := by
    rw [← decide_not, decide_eq_decide]
    omega
  rw [ofInt, neg_round, hsign, ofInt, Int.natAbs_neg]

/-- Subtracting a small integer from another one gives the double nearest to their difference,
unless one of the two is zero. -/
theorem ofInt_sub {a b : Int} (ha : a.natAbs < 2 ^ (53 : Nat)) (hb : b.natAbs < 2 ^ (53 : Nat))
    (hzero : b ≠ 0) (hne : a - b ≠ 0) : ofInt a - ofInt b = ofInt (a - b) := by
  change ofInt a + neg (ofInt b) = _
  rw [neg_ofInt hzero, ofInt_add ha (by rwa [Int.natAbs_neg]) hne]
  rfl

/-- Multiplying a small integer by a positive one gives the double nearest to their product. -/
theorem ofInt_mul {a b : Int} (ha : a.natAbs < 2 ^ (53 : Nat)) (hb : b.natAbs < 2 ^ (53 : Nat))
    (hbpos : 0 < b) : ofInt a * ofInt b = ofInt (a * b) := by
  obtain ⟨x, hx, hxsign, hxmagnitude⟩ := exists_ofInt ha
  obtain ⟨y, hy, hysign, hymagnitude⟩ := exists_ofInt hb
  have hsign : (x.negative != y.negative) = decide (a * b < 0) := by
    rw [hxsign, hysign, decide_eq_false (Int.not_lt.2 (Int.le_of_lt hbpos)), Bool.bne_false,
      decide_eq_decide, Int.mul_neg_iff]
    omega
  have hproduct : x.magnitude * y.magnitude = (a * b).natAbs * unitsOfOne * unitsOfOne := by
    rw [hxmagnitude, hymagnitude, Int.natAbs_mul, Nat.mul_mul_mul_comm, ← Nat.mul_assoc]
  have hround := round_mul_right (Nat.pos_of_ne_zero unitsOfOne_ne_zero) (decide (a * b < 0))
    ((a * b).natAbs * unitsOfOne) 1
  rw [Nat.one_mul] at hround
  rw [hx, hy]
  change mul (.finite x) (.finite y) = _
  rw [mul, hsign, hproduct, hround, ofInt]

end Double

end Dialogue
