import Dialogue.Failure
import Dialogue.Proofs.Program.Faithful
import Dialogue.Proofs.Rendered.Lexeme
import Dialogue.Proofs.RoundTrip.Script

/-!
# Integers from source to program

An integer below `2 ^ 53` in magnitude is a double exactly (`FiniteDouble.exists_magnitude_eq`), and
all its spellings, with zeros in front of it or after a point, have the value of that double
(`Spelling.exists_toDouble`). So it is written in the program as what it is (`compile_integer`). On
the way it is held in a word of 64 bits; a double is taken to an integer only if it is one and
nothing is lost by that (`Double.lower_eq_integer_iff`, `FiniteDouble.toWord_of_value_eq`).
-/

namespace Dialogue

/-! ## Integers in a program -/

/-- A finite double is written as an integer exactly if it is one, below `2 ^ 53` in magnitude. -/
theorem Double.lower_eq_integer_iff {x : FiniteDouble} {n : Int} :
    (Double.finite x).lower = .integer n ↔ x.value = n ∧ n.natAbs < 2 ^ (53 : Nat) := by
  rw [← FiniteDouble.toInt?_eq_some_iff, lower]
  cases x.toInt? with
  | none => simp
  | some m =>
    rw [Option.some.injEq]
    dsimp only
    split
    · rename_i hm
      rw [Json.integer.injEq]
      exact ⟨fun h => ⟨h, h ▸ hm⟩, And.left⟩
    · rename_i hm
      constructor
      · intro h
        cases h
      · rintro ⟨rfl, hn⟩
        exact absurd hn hm

/-! ## Spellings -/

/-- A way to write an integer as a numeral: a sign and digits whose value is the integer, with any
zeros in front, and perhaps a point and zeros after it. Zero takes either sign, and needs no digit
before the point if there is one after it. -/
structure Spelling (k : Int) where
  minus : Bool
  whole : List Char
  zeros? : Option Nat
  isDigit_of_mem : ∀ c ∈ whole, c.isDigit = true
  value_eq : (if minus then -(ofDigits whole : Int) else ofDigits whole) = k
  some_digit : whole ≠ [] ∨ ∃ n, zeros? = some (n + 1)

namespace Spelling

variable {k : Int} (s : Spelling k)

/-- The digits after the point. -/
def fraction : List Char := List.replicate (s.zeros?.getD 0) '0'

/-- What follows the sign. -/
def body : List Char := s.whole ++ if s.zeros?.isSome then '.' :: s.fraction else []

/-- The text of a spelling. -/
def text : List Char := (if s.minus then ['-'] else []) ++ s.body

/-- The numeral that a spelling is read as. -/
def numeral : Numeral := ⟨s.minus, s.whole, s.fraction⟩

theorem isDigit_of_mem_fraction {c : Char} (h : c ∈ s.fraction) : c.isDigit = true := by
  rw [List.eq_of_mem_replicate h]
  decide

theorem isNumeralPart_of_mem_body (c : Char) (h : c ∈ s.body) : Reader.isNumeralPart c = true := by
  rcases List.mem_append.1 h with h | h
  · exact Reader.isNumeralPart_of_isDigit (s.isDigit_of_mem c h)
  · split at h
    · rcases List.mem_cons.1 h with rfl | h
      · decide
      · exact Reader.isNumeralPart_of_isDigit (s.isDigit_of_mem_fraction h)
    · cases h

theorem body_ne_nil : s.body ≠ [] := by
  rw [body]
  rcases s.some_digit with hwhole | ⟨n, hzeros⟩
  · exact List.append_ne_nil_of_left_ne_nil hwhole _
  · simp [hzeros]

theorem ofText?_text : Numeral.ofText? s.text = some s.numeral := by
  have hminus : s.body.head? ≠ some '-' := by
    intro hhead
    have hpart := s.isNumeralPart_of_mem_body '-' (List.mem_of_head? hhead)
    exact Reader.ne_minus_of_isNumeralPart hpart rfl
  rw [text, Numeral.ofText?_append _ hminus, body]
  cases hzeros : s.zeros? with
  | none =>
    have hne : s.whole ≠ [] := s.some_digit.resolve_right (by simp [hzeros])
    have hread := Numeral.ofUnsigned?_whole hne s.isDigit_of_mem s.minus
    simpa [numeral, fraction, hzeros] using hread
  | some n =>
    have hne : s.whole ++ s.fraction ≠ [] := by
      rcases s.some_digit with hwhole | ⟨m, hm⟩
      · exact List.append_ne_nil_of_left_ne_nil hwhole _
      · simp [fraction, hm]
    exact Numeral.ofUnsigned?_point hne s.isDigit_of_mem (fun _ => s.isDigit_of_mem_fraction)
      s.minus

theorem ofDigits_whole : ofDigits s.whole = k.natAbs := by
  have hvalue := s.value_eq
  split at hvalue
  · omega
  · omega

/-- Zeros after the point scale the digits and their weight alike, so they do not count. -/
theorem toDouble_numeral :
    s.numeral.toDouble = .round s.minus (ofDigits s.whole * FiniteDouble.unitsOfOne) 1 := by
  have hvalue : ofDigits (s.whole ++ s.fraction) = ofDigits s.whole * 10 ^ s.fraction.length := by
    calc ofDigits (s.whole ++ s.fraction)
        = Nat.ofDigitChars 10 s.fraction (ofDigits s.whole) := Nat.ofDigitChars_append 0
      _ = ofDigits s.whole * 10 ^ s.fraction.length := by
        rw [fraction, Nat.ofDigitChars_replicate_zero, List.length_replicate, Nat.mul_comm]
  have hpos : 0 < 10 ^ s.fraction.length := Nat.pow_pos (by decide)
  have hround := Double.round_mul_right hpos s.minus (ofDigits s.whole * FiniteDouble.unitsOfOne) 1
  rw [Nat.one_mul] at hround
  rw [Numeral.toDouble, numeral, hvalue, Nat.mul_right_comm, hround]

/-- Every spelling of a small integer is rounded to that integer. -/
theorem exists_toDouble (h : k.natAbs < 2 ^ (53 : Nat)) :
    ∃ x : FiniteDouble, s.numeral.toDouble = .finite x ∧ x.value = k := by
  rw [← s.ofDigits_whole] at h
  obtain ⟨x, hnegative, hmagnitude⟩ := FiniteDouble.exists_magnitude_eq h s.minus
  refine ⟨x, ?_, ?_⟩
  · rw [toDouble_numeral, ← hmagnitude, ← hnegative, FiniteDouble.round_magnitude]
  · rw [FiniteDouble.value_eq_iff, FiniteDouble.units_of_magnitude_eq hmagnitude, hnegative,
      s.value_eq]

/-! ## Programs -/

theorem exists_text : ∃ c cs, s.text = c :: cs ∧ Reader.isNumeralStart c = true :=
  Reader.exists_signed s.body_ne_nil s.isNumeralPart_of_mem_body s.minus

theorem primary_text (expr : Reader Expr) (n : Nat) (rest : List Char)
    (hrest : rest.head?.any Reader.goesOn = false) :
    Reader.primary expr n (s.text ++ rest) =
      .ok (.literal (.number s.numeral.toDouble), rest) := by
  have hrun := Reader.numeralRun?_append s.body_ne_nil s.isNumeralPart_of_mem_body s.minus
    (Reader.any_isNumeralPart_of_any_goesOn hrest)
  have hread : Reader.numeral (s.text ++ rest) = .ok ((s.text, s.numeral.toDouble), rest) := by
    rw [Reader.numeral, text, hrun, ← text]
    simp only [s.ofText?_text]
  obtain ⟨c, cs, htext, hc⟩ := s.exists_text
  rw [htext, List.cons_append] at hread ⊢
  exact Reader.primary_of_numeral hc hread

theorem read_act :
    Script.read ("act " ++ String.ofList s.text) =
      .ok [.perform .act (.literal (.number s.numeral.toDouble))] := by
  have hopens : OpensExpr s.text := by
    obtain ⟨c, cs, htext, hc⟩ := s.exists_text
    exact ⟨c, cs, htext, by simp [startsExpr, hc]⟩
  have hscript := Reader.script_act hopens fun n hn =>
    Reader.expressionAt_of_primary hopens.ne_nil s.primary_text hn
  have htext : ("act " ++ String.ofList s.text).toList = phrase "act " ++ s.text := by
    simp [phrase]
  rw [Script.read, htext, hscript]
  rfl

/-- A spelling of a small integer compiles to a program that acts with that integer. -/
theorem compile_act (h : k.natAbs < 2 ^ (53 : Nat)) :
    compile ("act " ++ String.ofList s.text) =
      .ok (.block [.object [("@act", .integer k)]] []) := by
  obtain ⟨x, hx, hvalue⟩ := s.exists_toDouble h
  have hread := s.read_act
  rw [hx] at hread
  have hlower : Script.lower [.perform .act (.literal (.number (.finite x)))] =
      .ok (.block [.object [("@act", .integer k)]] []) := by
    rw [← Double.lower_eq_integer_iff.2 ⟨hvalue, h⟩]
    rfl
  exact compile_of_lower hread hlower

end Spelling

/-- The text of a program that acts with an integer has the integer's decimal digits in it. -/
theorem Json.compact_act (k : Int) :
    (Json.block [.object [("@act", .integer k)]] []).compact =
      "\x7b\"@do\":[\x7b\"@act\":" ++ toString k ++ "\x7d]\x7d" := by
  have htext (rest : List Char) :
      (Json.block [.object [("@act", .integer k)]] []).compactText rest =
      "\x7b\"@do\":[\x7b\"@act\":".toList ++ (integerText k ++ ("\x7d]\x7d".toList ++ rest)) :=
    rfl
  rw [compact, htext, integerText_eq, List.append_nil, ← String.toList_append,
    ← String.toList_append, String.ofList_toList, String.append_assoc]

/-- Integers below `2 ^ 53` in magnitude get from a script to the program: however such an integer
is spelled, the program's text has its decimal digits. A double is written as an integer exactly if
it is one below that bound, and then the conversion to a word of 64 bits loses nothing. -/
theorem compile_integer :
    (∀ (k : Int) (s : Spelling k), k.natAbs < 2 ^ (53 : Nat) →
      ∃ program, compile ("act " ++ String.ofList s.text) = .ok program ∧
        program.compact = "\x7b\"@do\":[\x7b\"@act\":" ++ toString k ++ "\x7d]\x7d") ∧
    (∀ (x : FiniteDouble) (n : Int),
      (Double.finite x).lower = .integer n ↔ x.value = n ∧ n.natAbs < 2 ^ (53 : Nat)) ∧
    ∀ (x : FiniteDouble) (n : Int),
      (Double.finite x).lower = .integer n → x.toWord = n ∧ x.value = x.toWord := by
  refine ⟨?_, fun x n => Double.lower_eq_integer_iff, ?_⟩
  · intro k s hk
    exact ⟨_, s.compile_act hk, Json.compact_act k⟩
  · intro x n hlower
    obtain ⟨hvalue, hn⟩ := Double.lower_eq_integer_iff.1 hlower
    have hword := x.toWord_of_value_eq hvalue hn
    exact ⟨hword, hword ▸ hvalue⟩

theorem compile_integer_padded :
    (∃ program, compile "act -007.00" = .ok program ∧
      program.compact = "\x7b\"@do\":[\x7b\"@act\":-7\x7d]\x7d") ∧
    (FiniteDouble.zero true).toWord = 0 ∧
      (FiniteDouble.zero true).value = (FiniteDouble.zero true).toWord := by
  obtain ⟨hspelled, -, hword⟩ := compile_integer
  have hzero : (Double.finite (.zero true)).lower = .integer 0 := by
    rw [Double.lower, FiniteDouble.toInt?_of_mantissa_eq_zero rfl]
    rfl
  refine ⟨?_, hword _ _ hzero⟩
  have htext : "act " ++ String.ofList ['-', '0', '0', '7', '.', '0', '0'] = "act -007.00" := by
    decide
  rw [← htext]
  exact hspelled (-7)
    ⟨true, ['0', '0', '7'], some 2, List.all_eq_true.1 rfl, by decide,
      Or.inl (List.cons_ne_nil _ _)⟩ (by decide)

end Dialogue
