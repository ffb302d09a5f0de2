import Dialogue.Number.Decimal

/-!
# Numerals for doubles

Every double that a numeral can stand for has an exact decimal numeral, because a unit of
`2 ^ -1074` is a whole number of parts of `10 ^ -1074`. `Double.numeral` writes that numeral, with
no zeros at the end of its fraction, and a large power of ten for infinity. The main result is
`Double.toDouble_numeral`: rounding gives the double back, bit for bit.
-/

namespace Dialogue

/-- A run of characters of a kind ends where a character of another kind, or nothing, follows. -/
theorem Text.takeWhile_dropWhile_append {p : Char → Bool} {run rest : List Char}
    (hrun : ∀ c ∈ run, p c = true) (hrest : rest.head?.any p = false) :
    (run ++ rest).takeWhile p = run ∧ (run ++ rest).dropWhile p = rest := by
  rw [List.takeWhile_append_of_pos hrun, List.dropWhile_append_of_pos hrun]
  cases rest with
  | nil => simp
  | cons c rest =>
    have hc : p c = false := by simpa using hrest
    simp [hc]

/-! ## The text of a numeral -/

namespace Numeral

/-- How a numeral is written; a fraction without digits takes no point. -/
def text (x : Numeral) : List Char :=
  (if x.negative then ['-'] else []) ++ x.whole ++
    (if x.fraction.isEmpty then [] else '.' :: x.fraction)

/-- A numeral that can be written: digits only, and at least one of them before the point. -/
structure WellFormed (x : Numeral) : Prop where
  whole_ne_nil : x.whole ≠ []
  whole_digits : ∀ c ∈ x.whole, c.isDigit = true
  fraction_digits : ∀ c ∈ x.fraction, c.isDigit = true

/-- Digits without a point are a numeral. -/
theorem ofUnsigned?_whole {whole : List Char} (hne : whole ≠ [])
    (hwhole : ∀ c ∈ whole, c.isDigit = true) (negative : Bool) :
    ofUnsigned? negative whole = some ⟨negative, whole, []⟩ := by
  obtain ⟨htake, hdrop⟩ := Text.takeWhile_dropWhile_append hwhole
    (show ([] : List Char).head?.any Char.isDigit = false from rfl)
  rw [List.append_nil] at htake hdrop
  simp only [ofUnsigned?, htake, hdrop]
  rw [if_neg (by simpa using hne)]

/-- Digits around a point are a numeral, if there are any. -/
theorem ofUnsigned?_point {whole fraction : List Char} (hne : whole ++ fraction ≠ [])
    (hwhole : ∀ c ∈ whole, c.isDigit = true) (hfraction : ∀ c ∈ fraction, c.isDigit = true)
    (negative : Bool) :
    ofUnsigned? negative (whole ++ '.' :: fraction) = some ⟨negative, whole, fraction⟩ := by
  obtain ⟨htake, hdrop⟩ := Text.takeWhile_dropWhile_append hwhole
    (show ('.' :: fraction).head?.any Char.isDigit = false from rfl)
  simp only [ofUnsigned?, htake, hdrop]
  rw [if_pos ⟨trivial, List.all_eq_true.2 hfraction, by simpa using hne⟩]

/-- The digits and the point of a numeral are read back, whatever its sign. -/
theorem ofUnsigned?_text {x : Numeral} (h : x.WellFormed) (negative : Bool) :
    ofUnsigned? negative (x.whole ++ if x.fraction.isEmpty then [] else '.' :: x.fraction) =
      some ⟨negative, x.whole, x.fraction⟩ := by
  obtain ⟨hne, hwhole, hfraction⟩ := h
  cases hf : x.fraction with
  | nil =>
    rw [if_pos List.isEmpty_nil, List.append_nil]
    exact ofUnsigned?_whole hne hwhole negative
  | cons c cs =>
    rw [if_neg (by simp)]
    exact ofUnsigned?_point (by simp [hne]) hwhole (hf ▸ hfraction) negative

/-- What follows the sign is an unsigned numeral. -/
theorem ofText?_append (negative : Bool) {body : List Char} (h : body.head? ≠ some '-') :
    ofText? ((if negative then ['-'] else []) ++ body) = ofUnsigned? negative body := by
  cases negative with
  | true => rfl
  | false =>
    rw [if_neg Bool.false_ne_true, List.nil_append, ofText?]
    rintro rest rfl
    exact h rfl

theorem ofText?_text {x : Numeral} (h : x.WellFormed) : ofText? x.text = some x := by
  have hminus (more : List Char) : (x.whole ++ more).head? ≠ some '-' := by
    obtain ⟨c, cs, hcs⟩ := List.exists_cons_of_ne_nil h.whole_ne_nil
    rw [hcs, List.cons_append, List.head?_cons]
    rintro ⟨⟩
    exact absurd (h.whole_digits '-' (hcs ▸ List.mem_cons_self)) (by decide)
  rw [text, List.append_assoc, ofText?_append x.negative (hminus _)]
  exact ofUnsigned?_text h x.negative

/-! ## Exact numerals -/

/-- The digits of a number below `10 ^ width`, with leading zeros. -/
def padded (width n : Nat) : List Char :=
  List.replicate (width - (toDigits n).length) '0' ++ toDigits n

/-- The numeral of `count / 10 ^ places`, without zeros at the end of the fraction. -/
def ofParts (negative : Bool) (count : Nat) : Nat → Numeral
  | 0 => ⟨negative, toDigits count, []⟩
  | places + 1 =>
    if count % 10 = 0 then ofParts negative (count / 10) places
    else ⟨negative, toDigits (count / 10 ^ (places + 1)),
      padded (places + 1) (count % 10 ^ (places + 1))⟩

theorem isDigit_of_mem_toDigits {c : Char} {n : Nat} (h : c ∈ toDigits n) : c.isDigit = true :=
  Nat.isDigit_of_mem_toDigits (by decide) (by decide) h

theorem isDigit_of_mem_padded {c : Char} {width n : Nat} (h : c ∈ padded width n) :
    c.isDigit = true := by
  rcases List.mem_append.1 h with h | h
  · rw [List.eq_of_mem_replicate h]
    decide
  · exact isDigit_of_mem_toDigits h

theorem length_padded {width n : Nat} (hwidth : 0 < width) (h : n < 10 ^ width) :
    (padded width n).length = width := by
  have hle : (toDigits n).length ≤ width := (Nat.length_toDigits_le_iff (by decide) hwidth).2 h
  rw [padded, List.length_append, List.length_replicate]
  omega

theorem ofDigits_toDigits_append_padded {width n m : Nat} (hwidth : 0 < width)
    (h : m < 10 ^ width) :
    ofDigits (toDigits n ++ padded width m) = n * 10 ^ width + m := by
  have hlength := length_padded hwidth h
  have hpadded : Nat.ofDigitChars 10 (padded width m) 0 = m := by
    rw [padded, Nat.ofDigitChars_append, Nat.ofDigitChars_replicate_zero, Nat.mul_zero]
    exact Nat.ofDigitChars_ten_toDigits
  have happend : ofDigits (toDigits n ++ padded width m) =
      Nat.ofDigitChars 10 (padded width m) (Nat.ofDigitChars 10 (Nat.toDigits 10 n) 0) :=
    Nat.ofDigitChars_append 0
  rw [happend, Nat.ofDigitChars_ten_toDigits, Nat.ofDigitChars_eq_ofDigitChars_zero, hpadded,
    hlength, Nat.mul_comm]

theorem wellFormed_ofParts (negative : Bool) (count places : Nat) :
    (ofParts negative count places).WellFormed := by
  induction places generalizing count with
  | zero => exact ⟨Nat.toDigits_ne_nil, fun _ => isDigit_of_mem_toDigits, by simp [ofParts]⟩
  | succ places ih =>
    rw [ofParts]
    split
    · exact ih (count / 10)
    · exact ⟨Nat.toDigits_ne_nil, fun _ => isDigit_of_mem_toDigits, fun _ => isDigit_of_mem_padded⟩

end Numeral

/-! ## Rounding what is exact -/

theorem roundDiv_mul_right {c : Nat} (hc : 0 < c) (num den : Nat) :
    roundDiv (num * c) (den * c) = roundDiv num den := by
  have hdiv : num * c / (den * c) = num / den := Nat.mul_div_mul_right num den hc
  have hmod : num * c % (den * c) = num % den * c := Nat.mul_mod_mul_right c num den
  have hlt : 2 * (num % den * c) < den * c ↔ 2 * (num % den) < den := by
    rw [← Nat.mul_assoc]
    exact Nat.mul_lt_mul_right hc
  have heq : 2 * (num % den * c) = den * c ↔ 2 * (num % den) = den := by
    rw [← Nat.mul_assoc]
    exact Nat.mul_left_inj (Nat.ne_of_gt hc)
  simp only [roundDiv, hdiv, hmod, hlt, heq]

theorem roundDiv_mul_self {den : Nat} (h : 0 < den) (quotient : Nat) :
    roundDiv (quotient * den) den = quotient := by
  rw [roundDiv, Nat.mul_div_left quotient h, Nat.mul_mod_left, if_pos (Or.inl (by omega))]

namespace Double

theorem ofScaled_congr {negative : Bool} {m m' e e' : Nat} (hm : m = m') (he : e = e')
    (le : m ≤ 2 ^ (53 : Nat)) (normal : e = 0 ∨ 2 ^ (52 : Nat) ≤ m) :
    ofScaled negative m e le normal = ofScaled negative m' e' (hm ▸ le) (hm ▸ he ▸ normal) := by
  subst hm he
  rfl

/-- A common factor of numerator and denominator does not matter. -/
theorem round_mul_right {c : Nat} (hc : 0 < c) (negative : Bool) (num den : Nat) :
    round negative (num * c) (den * c) = round negative num den := by
  have hdiv : num * c / (den * c) = num / den := Nat.mul_div_mul_right num den hc
  refine ofScaled_congr ?_ (by rw [hdiv]) _ _
  rw [hdiv, Nat.mul_right_comm]
  exact roundDiv_mul_right hc num _

end Double

namespace FiniteDouble

/-- The exponent that rounding takes for the magnitude of a double is the double's own. -/
theorem exponentFor_magnitude (x : FiniteDouble) : exponentFor x.magnitude = x.exponent := by
  rw [exponentFor, magnitude]
  by_cases hzero : x.mantissa = 0
  · have hexponent : x.exponent = 0 := by
      rcases x.normal with h | h
      · exact h
      · omega
    rw [hzero, hexponent]
    decide
  · have hpos : x.mantissa * 2 ^ x.exponent ≠ 0 :=
      Nat.mul_ne_zero hzero (Nat.pos_iff_ne_zero.1 (Nat.two_pow_pos _))
    rcases x.normal with h | h
    · have hlt : (x.mantissa * 2 ^ x.exponent).log2 < 53 := by
        rw [Nat.log2_lt hpos, h]
        simpa using x.mantissa_lt
      omega
    · have hlog : (x.mantissa * 2 ^ x.exponent).log2 = 52 + x.exponent := by
        rw [Nat.log2_eq_iff hpos, Nat.pow_add, Nat.add_right_comm, Nat.pow_add 2 53]
        exact ⟨Nat.mul_le_mul_right _ h, Nat.mul_lt_mul_of_pos_right x.mantissa_lt
          (Nat.two_pow_pos _)⟩
      omega

/-- Rounding fixes what the format can represent. -/
theorem round_magnitude (x : FiniteDouble) :
    Double.round x.negative x.magnitude 1 = .finite x := by
  have hexponent : exponentFor (x.magnitude / 1) = x.exponent := by
    rw [Nat.div_one, exponentFor_magnitude]
  have hmantissa : roundDiv x.magnitude (1 * 2 ^ exponentFor (x.magnitude / 1)) = x.mantissa := by
    rw [hexponent, Nat.one_mul, magnitude, roundDiv_mul_self (Nat.two_pow_pos _)]
  have hlt := x.mantissa_lt
  rw [Double.round, Double.ofScaled_congr hmantissa hexponent, Double.ofScaled,
    dif_neg (Nat.ne_of_lt hlt), dif_pos x.exponent_le]

/-- The exact numeral of a finite double. -/
def numeral (x : FiniteDouble) : Numeral := .ofParts x.negative x.parts 1074

end FiniteDouble

theorem Numeral.toDouble_ofParts (negative : Bool) (count places : Nat) :
    (ofParts negative count places).toDouble =
      .round negative (count * FiniteDouble.unitsOfOne) (10 ^ places) := by
  induction places generalizing count with
  | zero =>
    have hcount : ofDigits (toDigits count ++ []) = count := by
      rw [List.append_nil]
      exact Nat.ofDigitChars_ten_toDigits
    rw [ofParts, toDouble, hcount, List.length_nil]
  | succ places ih =>
    rw [ofParts]
    split
    · rename_i hmod
      have hcount : count = count / 10 * 10 := by omega
      rw [ih, Nat.pow_succ, ← Double.round_mul_right (by decide : 0 < 10), Nat.mul_right_comm,
        ← hcount]
    · have hlt : count % 10 ^ (places + 1) < 10 ^ (places + 1) :=
        Nat.mod_lt _ (Nat.pow_pos (by decide))
      rw [toDouble, ofDigits_toDigits_append_padded (Nat.succ_pos _) hlt,
        length_padded (Nat.succ_pos _) hlt, Nat.div_add_mod']

theorem FiniteDouble.toDouble_numeral (x : FiniteDouble) : x.numeral.toDouble = .finite x := by
  have hpow (n : Nat) : 5 ^ n * 2 ^ n = 10 ^ n := (Nat.mul_pow 5 2 n).symm
  have hten : partsOfUnit * unitsOfOne = 10 ^ (1074 : Nat) := by
    simp only [partsOfUnit, unitsOfOne, hpow]
  have hpos : 0 < 10 ^ (1074 : Nat) := Nat.pow_pos (by decide)
  rw [numeral, Numeral.toDouble_ofParts, parts, Nat.mul_assoc, hten]
  calc Double.round x.negative (x.magnitude * 10 ^ (1074 : Nat)) (10 ^ (1074 : Nat))
      = Double.round x.negative (x.magnitude * 10 ^ (1074 : Nat)) (1 * 10 ^ (1074 : Nat)) := by
        rw [Nat.one_mul]
    _ = Double.round x.negative x.magnitude 1 := Double.round_mul_right hpos _ _ _
    _ = .finite x := x.round_magnitude

/-! ## Numerals for all doubles -/

namespace Double

/-- A numeral that rounds to a double. No numeral does to `nan`, which is written as zero. -/
def numeral : Double → Numeral
  | .nan => ⟨false, ['0'], []⟩
  | .infinite negative => ⟨negative, '1' :: List.replicate 309 '0', []⟩
  | .finite x => x.numeral

/-- A magnitude of at least `2 ^ 2098` units is out of the format's range. -/
theorem round_eq_infinite {num : Nat} (h : 2 ^ (2098 : Nat) ≤ num) (negative : Bool) :
    round negative num 1 = .infinite negative := by
  have hne : num ≠ 0 := by
    rintro rfl
    exact absurd h (by decide +kernel)
  have hexponent : 2046 ≤ exponentFor (num / 1) := by
    have hlog : 2098 ≤ num.log2 := (Nat.le_log2 hne).2 h
    rw [Nat.div_one, exponentFor]
    omega
  rw [round, ofScaled]
  split
  · rw [dif_neg (by omega)]
  · rw [dif_neg (by omega)]

theorem toDouble_numeral {v : Double} (h : v ≠ .nan) : v.numeral.toDouble = v := by
  cases v with
  | nan => exact absurd rfl h
  | infinite negative =>
    have hpow (n : Nat) : Nat.ofDigitChars 10 ('1' :: List.replicate n '0') 0 = 10 ^ n := by
      rw [Nat.ofDigitChars_cons, Nat.ofDigitChars_replicate_zero]
      exact Nat.mul_one _
    have hcount : ofDigits ('1' :: List.replicate 309 '0' ++ []) = 10 ^ (309 : Nat) := by
      rw [List.append_nil]
      exact hpow 309
    rw [numeral, Numeral.toDouble, hcount]
    exact round_eq_infinite (by decide +kernel) negative
  | finite x => exact x.toDouble_numeral

theorem wellFormed_numeral (v : Double) : v.numeral.WellFormed := by
  cases v with
  | nan =>
    refine ⟨List.cons_ne_nil _ _, ?_, fun c hc => absurd hc List.not_mem_nil⟩
    intro c hc
    rw [List.mem_singleton.1 hc]
    decide
  | infinite negative =>
    refine ⟨List.cons_ne_nil _ _, ?_, fun c hc => absurd hc List.not_mem_nil⟩
    intro c hc
    rcases List.mem_cons.1 hc with rfl | hc
    · decide
    · rw [List.eq_of_mem_replicate hc]
      decide
  | finite x => exact Numeral.wellFormed_ofParts _ _ _

/-- Rounding never gives `nan`. -/
theorem round_ne_nan (negative : Bool) (num den : Nat) : round negative num den ≠ .nan := by
  rw [round, ofScaled]
  split
  · split <;> simp
  · split <;> simp

end Double

end Dialogue
