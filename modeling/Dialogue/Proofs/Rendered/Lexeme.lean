import Dialogue.Json.Value
import Dialogue.Json.Reader
import Dialogue.Proofs.Written.Lexeme
import Mathlib.Tactic.SplitIfs

/-!
# Numbers and characters of JSON text

What the two texts of a JSON value have in common: how numbers are written, and how the characters
of a string are. A number has no blank and no quote in it (`Json.isNumberPart_of_mem_realText`), an
integer is written in decimal digits without leading zeros (`Json.integerText_eq`,
`Json.head_toDigits_ne`), and a character of a string is written in one of three ways
(`Json.escape_cases`).
-/

namespace Dialogue

namespace Json

/-! ## Numbers -/

/-- Whether a character can stand in the text of a number. -/
def isNumberPart (c : Char) : Bool := c.isDigit || c == '-' || c == '+' || c == '.' || c == 'e'

theorem isNumberPart_of_mem_toDigits {c : Char} {n : Nat} (h : c ∈ toDigits n) :
    isNumberPart c = true := by
  rw [isNumberPart, Numeral.isDigit_of_mem_toDigits h]
  rfl

theorem isNumberPart_of_mem_signText {negative : Bool} {c : Char} (h : c ∈ signText negative) :
    isNumberPart c = true := by
  cases negative with
  | false => cases h
  | true =>
    rw [List.mem_singleton.1 h]
    rfl

theorem isNumberPart_of_mem_integerText {n : Int} {c : Char} (h : c ∈ integerText n) :
    isNumberPart c = true := by
  rcases List.mem_append.1 h with h | h
  · exact isNumberPart_of_mem_signText h
  · exact isNumberPart_of_mem_toDigits h

section

variable {digits : List Char} (hdigits : ∀ c ∈ digits, isNumberPart c = true)

include hdigits

theorem isNumberPart_of_mem_positional (power : Int) :
    ∀ c ∈ Layout.positional digits power, isNumberPart c = true := by
  have hzeros (n : Nat) : ∀ c ∈ List.replicate n '0', isNumberPart c = true :=
    List.forall_mem_replicate.2 (Or.inr rfl)
  unfold Layout.positional
  simp only
  split
  · simp only [List.forall_mem_append]
    exact ⟨⟨List.all_eq_true.1 rfl, hzeros _⟩, hdigits⟩
  · split
    · simp only [List.forall_mem_append]
      exact ⟨⟨hdigits, hzeros _⟩, List.all_eq_true.1 rfl⟩
    · simp only [List.forall_mem_append]
      exact ⟨⟨fun c hc => hdigits c (List.mem_of_mem_take hc), List.all_eq_true.1 rfl⟩,
        fun c hc => hdigits c (List.mem_of_mem_drop hc)⟩

theorem isNumberPart_of_mem_scientific (power : Int) :
    ∀ c ∈ Layout.scientific digits power, isNumberPart c = true := by
  unfold Layout.scientific
  simp only [List.forall_mem_append]
  refine ⟨⟨?_, ?_⟩, fun c hc => isNumberPart_of_mem_toDigits hc⟩
  · split
    · simp only [List.forall_mem_cons] at hdigits ⊢
      exact ⟨hdigits.1, rfl, hdigits.2⟩
    · exact hdigits
  · split
    · exact List.all_eq_true.1 rfl
    · exact List.all_eq_true.1 rfl

end

/-- However a decimal is laid out, only signs, a point and an `e` join its digits. -/
theorem isNumberPart_of_mem_write {layout : Layout} {x : Decimal} :
    ∀ c ∈ layout.write x, isNumberPart c = true := by
  have hdigits : ∀ c ∈ ((toDigits x.significand).reverse.dropWhile (· == '0')).reverse,
      isNumberPart c = true := by
    intro c hc
    have hmem := (List.dropWhile_sublist _).mem (List.mem_reverse.1 hc)
    exact isNumberPart_of_mem_toDigits (List.mem_reverse.1 hmem)
  unfold Layout.write
  simp only
  split
  · exact isNumberPart_of_mem_positional hdigits _
  · exact isNumberPart_of_mem_scientific hdigits _

theorem isNumberPart_of_mem_realText {x : FiniteDouble} {c : Char} (h : c ∈ realText x) :
    isNumberPart c = true := by
  rcases List.mem_append.1 h with h | h
  · exact isNumberPart_of_mem_signText h
  · split at h
    · have hzero : ∀ d ∈ ['0', '.', '0'], isNumberPart d = true := List.all_eq_true.1 rfl
      exact hzero c h
    · exact isNumberPart_of_mem_write c h

/-- Only zero is written with a zero in front. -/
theorem head_toDigits_ne {n : Nat} (h : n ≠ 0) : (toDigits n).head? ≠ some '0' := by
  induction n using Nat.strongRecOn with
  | ind n ih =>
    by_cases hsmall : n < 10
    · have hdigit : ∀ d < 10, d ≠ 0 → Nat.digitChar d ≠ '0' := by decide
      rw [toDigits, Nat.toDigits_of_lt_base hsmall, List.head?_cons]
      exact fun hzero => hdigit n hsmall h (Option.some.inj hzero)
    · have hne : toDigits (n / 10) ≠ [] := Nat.toDigits_ne_nil
      have happend : toDigits n = toDigits (n / 10) ++ [Nat.digitChar (n % 10)] :=
        Nat.toDigits_of_base_le (by decide) (Nat.le_of_not_lt hsmall)
      have hfirst := ih (n / 10) (by omega) (by omega)
      obtain ⟨c, cs, hcs⟩ := List.exists_cons_of_ne_nil hne
      rw [hcs] at hfirst
      rw [happend, hcs]
      exact hfirst

/-- An integer is written as is usual. -/
theorem integerText_eq (n : Int) : integerText n = (toString n).toList := by
  cases n with
  | ofNat n =>
    have hsign : decide (Int.ofNat n < 0) = false := decide_eq_false (by simp)
    have htext : toString (Int.ofNat n) = String.ofList (toDigits n) := rfl
    rw [integerText, hsign, htext, String.toList_ofList]
    rfl
  | negSucc n =>
    have hsign : decide (Int.negSucc n < 0) = true := decide_eq_true (Int.negSucc_lt_zero n)
    have htext : toString (Int.negSucc n) = "-" ++ String.ofList (toDigits (n + 1)) := rfl
    have hlist : ("-" ++ String.ofList (toDigits (n + 1))).toList = '-' :: toDigits (n + 1) := by
      simp
    rw [integerText, hsign, htext, hlist]
    rfl

theorem exists_toDigits (n : Nat) : ∃ c cs, toDigits n = c :: cs ∧ c.isDigit = true := by
  have hne : toDigits n ≠ [] := Nat.toDigits_ne_nil
  obtain ⟨c, cs, hcs⟩ := List.exists_cons_of_ne_nil hne
  exact ⟨c, cs, hcs, Numeral.isDigit_of_mem_toDigits (hcs ▸ List.mem_cons_self)⟩

/-- Whether a character can start the text of an integer. -/
def opensNumber (c : Char) : Bool := c == '-' || c.isDigit

theorem exists_integerText (n : Int) :
    ∃ c cs, integerText n = c :: cs ∧ opensNumber c = true := by
  rw [integerText]
  cases decide (n < 0) with
  | true => exact ⟨'-', toDigits n.natAbs, rfl, rfl⟩
  | false =>
    obtain ⟨c, cs, hcs, hdigit⟩ := exists_toDigits n.natAbs
    exact ⟨c, cs, hcs, by rw [opensNumber, hdigit, Bool.or_true]⟩

/-! ## Characters -/

/-- A character is written as itself, by a letter after a backslash, or by its code. -/
theorem escape_cases (c : Char) :
    (escape c = [c] ∧ c ≠ '"' ∧ c ≠ '\\' ∧ 0x20 ≤ c.toNat) ∨
      (∃ letter, escape c = ['\\', letter] ∧ letter ≠ 'u' ∧ unescape? letter = some c) ∨
      c.toNat < 0x20 ∧ escape c =
        ['\\', 'u', '0', '0', Text.hexDigit (c.toNat / 16), Text.hexDigit (c.toNat % 16)] := by
  generalize htext : escape c = text
  have hletter (letter d : Char) (hc : c = d) (heq : ['\\', letter] = text) (hu : letter ≠ 'u')
      (hread : unescape? letter = some d) :
      ∃ letter, text = ['\\', letter] ∧ letter ≠ 'u' ∧ unescape? letter = some c :=
    ⟨letter, heq.symm, hu, hc ▸ hread⟩
  unfold escape at htext
  split_ifs at htext with hquote hback hbackspace hfeed hnewline hreturn htab hcontrol
  · exact Or.inr (Or.inl (hletter _ _ hquote htext (by decide) rfl))
  · exact Or.inr (Or.inl (hletter _ _ hback htext (by decide) rfl))
  · exact Or.inr (Or.inl (hletter _ _ hbackspace htext (by decide) rfl))
  · exact Or.inr (Or.inl (hletter _ _ hfeed htext (by decide) rfl))
  · exact Or.inr (Or.inl (hletter _ _ hnewline htext (by decide) rfl))
  · exact Or.inr (Or.inl (hletter _ _ hreturn htext (by decide) rfl))
  · exact Or.inr (Or.inl (hletter _ _ htab htext (by decide) rfl))
  · exact Or.inr (Or.inr ⟨hcontrol, htext.symm⟩)
  · exact Or.inl ⟨htext.symm, hquote, hback, Nat.le_of_not_lt hcontrol⟩

end Json

end Dialogue
