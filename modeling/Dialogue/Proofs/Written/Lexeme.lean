import Dialogue.Proofs.Written.Numeral
import Dialogue.Reader.Lexeme

/-!
# Lexemes are read back

How words, strings and numbers are written, and that each is read back with what follows it left
alone. A word or a numeral ends only where no character of its kind follows; a string ends at its
own closing quote.
-/

namespace Dialogue

open Text (isBlank skip blankRanges)

/-! ## Gaps -/

namespace Text

/-- Characters are different if only one of them is in some class. -/
theorem ne_of_true_of_false {p : Char → Bool} {c d : Char} (hc : p c = true) (hd : p d = false) :
    c ≠ d := by
  rintro rfl
  exact Bool.false_ne_true (hd.symm.trans hc)

/-- Whether a character can end a gap: it is no blank, and no comment starts with it. -/
def isSolid (c : Char) : Bool := !isBlank c && c != '/'

theorem skip_cons {c : Char} (h : isSolid c = true) (rest : List Char) :
    skip (c :: rest) = c :: rest := by
  simp only [isSolid, Bool.and_eq_true, Bool.not_eq_true', bne_iff_ne] at h
  rw [skip]
  · rw [h.1, if_neg Bool.false_ne_true]
  · intro tail heq
    exact absurd heq h.2

theorem skip_space (rest : List Char) : skip (' ' :: rest) = skip rest := rfl

theorem skip_newline (rest : List Char) : skip ('\n' :: rest) = skip rest := rfl

theorem isBlank_bounds {c : Char} (h : isBlank c = true) : c.toNat ≤ 32 ∨ 133 ≤ c.toNat := by
  obtain ⟨range, hmem, hc⟩ := List.any_eq_true.1 h
  have hall : ∀ range ∈ blankRanges, range.2 ≤ 32 ∨ 133 ≤ range.1 := by decide
  have hrange := hall range hmem
  simp only [Bool.and_eq_true, decide_eq_true_eq] at hc
  omega

end Text

namespace Reader

/-! ## Words -/

/-- Whether a string is a word: a letter or an underscore, then letters, digits and underscores. -/
def isSymbol (x : String) : Bool :=
  match x.toList with
  | [] => false
  | c :: cs => isWordStart c && cs.all isWordPart

theorem isDigit_bounds {c : Char} (h : c.isDigit = true) : 48 ≤ c.toNat ∧ c.toNat ≤ 57 := by
  simp only [Char.isDigit, Bool.and_eq_true, decide_eq_true_eq, ge_iff_le,
    UInt32.le_iff_toNat_le] at h
  exact h

theorem isWordStart_bounds {c : Char} (h : isWordStart c = true) :
    65 ≤ c.toNat ∧ c.toNat ≤ 122 := by
  have halpha : c.isAlpha = (decide ('A'.val ≤ c.val ∧ c.val ≤ 'Z'.val) ||
      (decide ('a'.val ≤ c.val) && decide (c.val ≤ 'z'.val))) := rfl
  simp only [isWordStart, halpha, Bool.or_eq_true, Bool.and_eq_true, decide_eq_true_eq, beq_iff_eq,
    UInt32.le_iff_toNat_le] at h
  rcases h with (⟨hlow, hhigh⟩ | ⟨hlow, hhigh⟩) | rfl
  · exact ⟨hlow, Nat.le_trans hhigh (by decide)⟩
  · exact ⟨Nat.le_trans (by decide) hlow, hhigh⟩
  · decide

theorem isSolid_of_bounds {c : Char} (h : 48 ≤ c.toNat ∧ c.toNat ≤ 122) :
    Text.isSolid c = true := by
  have hblank : isBlank c = false := by
    rw [Bool.eq_false_iff]
    intro hc
    have := Text.isBlank_bounds hc
    omega
  have hslash : c ≠ '/' := by
    rintro rfl
    exact absurd h (by decide)
  simp [Text.isSolid, hblank, hslash]

theorem isSolid_of_isWordStart {c : Char} (h : isWordStart c = true) :
    Text.isSolid c = true :=
  isSolid_of_bounds (by have := isWordStart_bounds h; omega)

theorem isSolid_of_isNumeralStart {c : Char} (h : isNumeralStart c = true) :
    Text.isSolid c = true := by
  simp only [isNumeralStart, Bool.or_eq_true, beq_iff_eq] at h
  rcases h with (rfl | rfl) | h
  · decide
  · decide
  · exact isSolid_of_bounds (by have := isDigit_bounds h; omega)

/-- No character starts both a word and a numeral. -/
theorem isNumeralStart_of_isWordStart {c : Char} (h : isWordStart c = true) :
    isNumeralStart c = false := by
  have hbounds := isWordStart_bounds h
  rw [Bool.eq_false_iff]
  intro hc
  simp only [isNumeralStart, Bool.or_eq_true, beq_iff_eq] at hc
  rcases hc with (rfl | rfl) | hc
  · exact absurd hbounds (by decide)
  · exact absurd hbounds (by decide)
  · have := isDigit_bounds hc
    omega

/-- A word is made of its first character and its other ones. -/
theorem exists_of_isSymbol {x : String} (h : isSymbol x = true) :
    ∃ c cs, x.toList = c :: cs ∧ isWordStart c = true ∧ ∀ d ∈ cs, isWordPart d = true := by
  rw [isSymbol] at h
  split at h
  · exact absurd h Bool.false_ne_true
  · rename_i c cs heq
    rw [Bool.and_eq_true, List.all_eq_true] at h
    exact ⟨c, cs, heq, h⟩

/-- A word is read back, provided that no character follows that could go on with it. -/
theorem word?_append {x : String} (h : isSymbol x = true) {rest : List Char}
    (hrest : rest.head?.any isWordPart = false) : word? (x.toList ++ rest) = some (x, rest) := by
  obtain ⟨c, cs, hx, hc, hcs⟩ := exists_of_isSymbol h
  obtain ⟨htake, hdrop⟩ := Text.takeWhile_dropWhile_append hcs hrest
  rw [hx, List.cons_append, word?, if_pos hc, htake, hdrop, ← hx, String.ofList_toList]

theorem identifier_append {x : String} (h : isSymbol x = true) {rest : List Char}
    (hrest : rest.head?.any isWordPart = false) :
    identifier (x.toList ++ rest) = .ok (x, rest) := by
  rw [identifier, word?_append h hrest]

/-! ## Strings -/

/-- How a character is written in a string. -/
def escaped (c : Char) : List Char :=
  if c = '"' then ['\\', '"']
  else if c = '\\' then ['\\', '\\']
  else if c = '\n' then ['\\', 'n']
  else [c]

/-- How a string is written: in quotes, with escapes for quotes, backslashes and newlines. -/
def stringText (s : String) : List Char := '"' :: (s.toList.flatMap escaped ++ ['"'])

/-- A way to write characters inside a string of which each character is read back. -/
def ReadsChars (write : Char → List Char) : Prop :=
  ∀ opening c rest, stringTail opening (write c ++ rest) = withChar c (stringTail opening rest)

/-- A character that is no quote, no backslash and no newline stands for itself. -/
theorem stringTail_cons {c : Char} (hquote : c ≠ '"') (hback : c ≠ '\\') (hnewline : c ≠ '\n')
    (opening rest : List Char) :
    stringTail opening (c :: rest) = withChar c (stringTail opening rest) := by
  rw [stringTail.eq_def]
  simp only [if_neg hquote, if_neg hnewline, if_neg hback]

theorem readsChars_escaped : ReadsChars escaped := by
  intro opening c rest
  rw [escaped]
  split
  · subst c
    rfl
  · split
    · subst c
      rfl
    · split
      · subst c
        rfl
      · rename_i hquote hback hnewline
        exact stringTail_cons hquote hback hnewline opening rest

theorem stringTail_flatMap {write : Char → List Char} (hwrite : ReadsChars write)
    (opening content rest : List Char) :
    stringTail opening (content.flatMap write ++ '"' :: rest) = .ok (content, rest) := by
  induction content with
  | nil =>
    rw [List.flatMap_nil, List.nil_append, stringTail.eq_def]
    exact if_pos rfl
  | cons c content ih =>
    rw [List.flatMap_cons, List.append_assoc, hwrite, ih]
    rfl

/-- A string is read back from between its quotes, whatever its characters are. -/
theorem string_flatMap {write : Char → List Char} (hwrite : ReadsChars write) (s : String)
    (rest : List Char) :
    string ('"' :: (s.toList.flatMap write ++ '"' :: rest)) = .ok (s, rest) := by
  have hread := stringTail_flatMap hwrite ('"' :: (s.toList.flatMap write ++ '"' :: rest))
    s.toList rest
  rw [string, expect, eat?, if_pos rfl]
  simp only [bind, Except.bind, hread, String.ofList_toList]

theorem string_append (s : String) (rest : List Char) :
    string (stringText s ++ rest) = .ok (s, rest) := by
  rw [stringText, List.cons_append, List.append_assoc, List.singleton_append]
  exact string_flatMap readsChars_escaped s rest

/-! ## Numerals -/

/-- A double that some text is read as. -/
def Readable (v : Double) : Prop :=
  ∃ text run rest, numeral text = .ok ((run, v), rest)

theorem Readable.ne_nan {v : Double} (h : Readable v) : v ≠ .nan := by
  obtain ⟨text, run, rest, hread⟩ := h
  rw [numeral] at hread
  split at hread
  · cases hread
  · split at hread
    · cases hread
      exact Double.round_ne_nan _ _ _
    · cases hread

theorem isNumeralPart_of_isDigit {c : Char} (h : c.isDigit = true) : isNumeralPart c = true := by
  simp [isNumeralPart, h]

theorem ne_minus_of_isNumeralPart {c : Char} (h : isNumeralPart c = true) : c ≠ '-' :=
  Text.ne_of_true_of_false h (by decide)

section

variable {body : List Char} (hne : body ≠ []) (hbody : ∀ c ∈ body, isNumeralPart c = true)

include hne hbody

/-- A run of digits and points goes to its end, with or without a sign in front of it. -/
theorem numeralRun?_append (negative : Bool) {rest : List Char}
    (hrest : rest.head?.any isNumeralPart = false) :
    numeralRun? ((if negative then ['-'] else []) ++ body ++ rest) =
      some ((if negative then ['-'] else []) ++ body, rest) := by
  obtain ⟨htake, hdrop⟩ := Text.takeWhile_dropWhile_append hbody hrest
  obtain ⟨c, cs, rfl⟩ := List.exists_cons_of_ne_nil hne
  have hminus : (c == '-') = false :=
    beq_eq_false_iff_ne.2 (ne_minus_of_isNumeralPart (hbody c List.mem_cons_self))
  cases negative with
  | true => simp_all [numeralRun?]
  | false => simp_all [numeralRun?]

theorem exists_signed (negative : Bool) :
    ∃ c cs, (if negative then ['-'] else []) ++ body = c :: cs ∧ isNumeralStart c = true := by
  obtain ⟨c, cs, rfl⟩ := List.exists_cons_of_ne_nil hne
  have hc := hbody c List.mem_cons_self
  cases negative with
  | true => exact ⟨'-', _, rfl, by decide⟩
  | false =>
    refine ⟨c, cs, rfl, ?_⟩
    simp only [isNumeralPart, isNumeralStart, Bool.or_eq_true] at hc ⊢
    exact hc.symm.imp_left Or.inr

end

theorem isNumeralPart_of_wellFormed {x : Numeral} (h : x.WellFormed) :
    ∀ c ∈ x.whole ++ (if x.fraction.isEmpty then [] else '.' :: x.fraction),
      isNumeralPart c = true := by
  intro c hc
  rcases List.mem_append.1 hc with hc | hc
  · exact isNumeralPart_of_isDigit (h.whole_digits c hc)
  · split at hc
    · exact absurd hc List.not_mem_nil
    · rcases List.mem_cons.1 hc with rfl | hc
      · decide
      · exact isNumeralPart_of_isDigit (h.fraction_digits c hc)

/-- The text of a numeral is its sign and a run of digits and points. -/
theorem numeralRun?_text {x : Numeral} (h : x.WellFormed) {rest : List Char}
    (hrest : rest.head?.any isNumeralPart = false) :
    numeralRun? (x.text ++ rest) = some (x.text, rest) := by
  rw [Numeral.text, List.append_assoc (if x.negative then ['-'] else [])]
  exact numeralRun?_append (by simp [h.whole_ne_nil]) (isNumeralPart_of_wellFormed h) _ hrest

/-- The text of a numeral starts like one. -/
theorem exists_text {x : Numeral} (h : x.WellFormed) :
    ∃ c cs, x.text = c :: cs ∧ isNumeralStart c = true := by
  rw [Numeral.text, List.append_assoc]
  exact exists_signed (by simp [h.whole_ne_nil]) (isNumeralPart_of_wellFormed h) _

/-- A double is read back from its numeral. -/
theorem numeral_append {v : Double} (h : v ≠ .nan) {rest : List Char}
    (hrest : rest.head?.any isNumeralPart = false) :
    numeral (v.numeral.text ++ rest) = .ok ((v.numeral.text, v), rest) := by
  have hwell := v.wellFormed_numeral
  rw [numeral, numeralRun?_text hwell hrest]
  simp only [Numeral.ofText?_text hwell, Double.toDouble_numeral h]

/-- Some text is read as any number that is one. -/
theorem readable_of_ne_nan {v : Double} (h : v ≠ .nan) : Readable v :=
  ⟨v.numeral.text ++ [], v.numeral.text, [], numeral_append h rfl⟩

end Reader

end Dialogue
