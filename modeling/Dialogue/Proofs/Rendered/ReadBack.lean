import Dialogue.Proofs.Rendered.Lexeme

/-!
# Compact text is read back

The compact text of a JSON value is read as that value, if the value holds no fractions and no
object in it repeats a key. No text of a value is the start of another one's, except that a number
could go on: so each part is read back in front of any rest that ends a number (`EndsNumber`), and
such a rest is what follows a value in an array or an object. The bound on the number of steps is
never met, since a step reads at least one character. The main result is `Json.readValue_compact`.
-/

namespace Dialogue

namespace Json

/-! ## Numbers -/

/-- Whether a character would go on a number that it follows. -/
def goesOnNumber (c : Char) : Bool := c.isDigit || c == '.' || c == 'e' || c == 'E'

/-- A text that a number in front of it does not go on in. -/
def EndsNumber (rest : List Char) : Prop := rest.head?.any goesOnNumber = false

section Number

variable {rest : List Char}

theorem EndsNumber.not_isDigit (h : EndsNumber rest) : rest.head?.any Char.isDigit = false := by
  cases rest with
  | nil => rfl
  | cons c rest => simp_all [EndsNumber, goesOnNumber]

theorem readDigits_toDigits (n : Nat) (h : EndsNumber rest) :
    readDigits (toDigits n ++ rest) = some (toDigits n, rest) := by
  obtain ⟨htake, hdrop⟩ := Text.takeWhile_dropWhile_append
    (fun c hc => Numeral.isDigit_of_mem_toDigits (c := c) (n := n) hc) h.not_isDigit
  have hne : (toDigits n).isEmpty = false := List.isEmpty_eq_false_iff.2 Nat.toDigits_ne_nil
  rw [readDigits, htake, hdrop, hne]
  rfl

theorem readWhole_toDigits (n : Nat) (h : EndsNumber rest) :
    readWhole (toDigits n ++ rest) = some (toDigits n, rest) := by
  have hplain : ¬ ((toDigits n).head? = some '0' ∧ (toDigits n).length ≠ 1) := by
    rintro ⟨hhead, hlength⟩
    by_cases hzero : n = 0
    · exact hlength (by rw [hzero]; rfl)
    · exact head_toDigits_ne hzero hhead
  rw [readWhole, readDigits_toDigits n h]
  exact if_neg hplain

theorem readFraction_of_endsNumber (h : EndsNumber rest) :
    readFraction rest = some (none, rest) := by
  cases rest with
  | nil => rfl
  | cons c rest =>
    rw [readFraction]
    rintro text heq
    cases heq
    cases h

theorem readExponent_of_endsNumber (h : EndsNumber rest) :
    readExponent rest = some (none, rest) := by
  cases rest with
  | nil => rfl
  | cons c rest =>
    have hc : ¬ (c = 'e' ∨ c = 'E') := by
      rintro (rfl | rfl)
      · cases h
      · cases h
    rw [readExponent.eq_def]
    exact if_neg hc

theorem readUnsigned_toDigits (negative : Bool) (n : Nat) (h : EndsNumber rest) :
    readUnsigned negative (toDigits n ++ rest) =
      some (⟨negative, toDigits n, none, none⟩, rest) := by
  simp [readUnsigned, readWhole_toDigits n h, readFraction_of_endsNumber h,
    readExponent_of_endsNumber h]

theorem readNumber_integerText (n : Int) (h : EndsNumber rest) :
    readNumber (integerText n ++ rest) =
      some (⟨decide (n < 0), toDigits n.natAbs, none, none⟩, rest) := by
  have hread (negative : Bool) := readUnsigned_toDigits negative n.natAbs h
  rw [integerText]
  cases decide (n < 0) with
  | true => exact hread true
  | false =>
    obtain ⟨c, cs, hcs, hdigit⟩ := exists_toDigits n.natAbs
    rw [← hread false, signText, if_neg Bool.false_ne_true, List.nil_append, hcs, List.cons_append,
      readNumber]
    rintro text heq
    obtain ⟨rfl, -⟩ := List.cons.inj heq
    exact absurd hdigit (by decide)

theorem toJson?_integer (n : Int) :
    (NumberText.mk (decide (n < 0)) (toDigits n.natAbs) none none).toJson? = some (.integer n) := by
  have hdigits : ofDigits (toDigits n.natAbs) = n.natAbs := Nat.ofDigitChars_ten_toDigits
  have hzero : ¬ (n < 0 ∧ n.natAbs = 0) := by omega
  rw [NumberText.toJson?]
  simp only [hdigits, Option.isNone_none, decide_eq_true_eq, hzero, not_false_eq_true, if_true,
    and_self]
  congr 2
  split
  · omega
  · omega

theorem readScalar_integerText (n : Int) (h : EndsNumber rest) :
    readScalar (integerText n ++ rest) = some (.integer n, rest) := by
  obtain ⟨c, cs, hcs, hopens⟩ := exists_integerText n
  have hword {d : Char} (hd : opensNumber d = false) (word : List Char) :
      afterText? (d :: word) (integerText n ++ rest) = none := by
    rw [hcs]
    exact if_neg (Text.ne_of_true_of_false hopens hd)
  rw [readScalar, hword rfl, hword rfl, hword rfl]
  simp [readNumber_integerText n h, toJson?_integer]

end Number

/-! ## Strings -/

theorem readString_letter {letter c : Char} (hu : letter ≠ 'u') (h : unescape? letter = some c)
    (rest : List Char) :
    readString ('\\' :: letter :: rest) = consChar c (readString rest) := by
  rw [readString.eq_def]
  simp only [if_neg (show '\\' ≠ '"' by decide), if_true]
  split
  · rename_i heq
    cases heq
  · rename_i heq
    cases heq
    exact absurd rfl hu
  · rename_i heq
    cases heq
    rw [h]

theorem readString_code {a b c d : Char} {code : Nat} (h : Text.hexCode? a b c d = some code)
    (hvalid : code.isValidChar) (rest : List Char) :
    readString ('\\' :: 'u' :: a :: b :: c :: d :: rest) =
      consChar (Char.ofNat code) (readString rest) := by
  rw [readString.eq_def]
  simp only [if_neg (show '\\' ≠ '"' by decide), if_true, h, hvalid]

/-- What a character is written as is read as that character. -/
theorem readString_escape (c : Char) (rest : List Char) :
    readString (escape c ++ rest) = consChar c (readString rest) := by
  rcases escape_cases c with ⟨heq, hquote, hback, hle⟩ | ⟨letter, heq, hu, hletter⟩ | ⟨hlt, heq⟩
  · rw [heq, List.singleton_append, readString.eq_def]
    simp only [hquote, hback, if_false, Nat.not_lt.2 hle]
  · rw [heq]
    exact readString_letter hu hletter rest
  · have hcode := Text.hexCode?_hexDigit (show c.toNat < 256 by omega)
    have hread := readString_code hcode c.valid rest
    rw [Char.ofNat_toNat] at hread
    rw [heq]
    exact hread

theorem readString_flatMap (text rest : List Char) :
    readString (text.flatMap escape ++ '"' :: rest) = some (text, rest) := by
  induction text with
  | nil =>
    rw [List.flatMap_nil, List.nil_append, readString.eq_def]
    rfl
  | cons c text ih =>
    rw [List.flatMap_cons, List.append_assoc, readString_escape, ih]
    rfl

/-- The text of a string, with what follows it. -/
theorem stringText_append (text rest : List Char) :
    stringText text ++ rest = '"' :: (text.flatMap escape ++ '"' :: rest) := by
  simp [stringText]

theorem readKey_stringText (key : String) (rest : List Char) :
    readKey (stringText key.toList ++ ':' :: rest) = some (key, rest) := by
  have hquote (text : List Char) : afterText? ['"'] (skipGap ('"' :: text)) = some text := rfl
  have hcolon (text : List Char) : afterText? [':'] (skipGap (':' :: text)) = some text := rfl
  simp [readKey, stringText_append, hquote, hcolon, readString_flatMap]

/-! ## Values that are read back -/

/-- A value without fractions in which no object repeats a key. -/
inductive Exact : Json → Prop where
  | null : Exact .null
  | bool (b : Bool) : Exact (.bool b)
  | integer (n : Int) : Exact (.integer n)
  | string (s : String) : Exact (.string s)
  | array {values : List Json} (h : ∀ value ∈ values, Exact value) : Exact (.array values)
  | object {members : List (String × Json)} (nodup : (members.map Prod.fst).Nodup)
    (h : ∀ m ∈ members, Exact m.2) : Exact (.object members)

/-- Whether a character can start the text of an exact value. -/
def opensValue (c : Char) : Bool := opensNumber c || ['"', '[', '{', 'n', 't', 'f'].contains c

theorem Exact.exists_compactText {value : Json} (h : value.Exact) (rest : List Char) :
    ∃ c cs, compactText value rest = c :: cs ∧ opensValue c = true := by
  cases h with
  | null => exact ⟨_, _, rfl, rfl⟩
  | bool b =>
    cases b with
    | true => exact ⟨_, _, rfl, rfl⟩
    | false => exact ⟨_, _, rfl, rfl⟩
  | integer n =>
    obtain ⟨c, cs, hcs, hopens⟩ := exists_integerText n
    exact ⟨c, cs ++ rest, by rw [compactText, hcs, List.cons_append],
      by rw [opensValue, hopens, Bool.true_or]⟩
  | string s => exact ⟨_, _, rfl, rfl⟩
  | @array values _ =>
    cases values with
    | nil => exact ⟨_, _, rfl, rfl⟩
    | cons value values => exact ⟨_, _, rfl, rfl⟩
  | @object members _ _ =>
    cases members with
    | nil => exact ⟨_, _, rfl, rfl⟩
    | cons member members => exact ⟨_, _, rfl, rfl⟩

theorem skipGap_of_opensValue {c : Char} (h : opensValue c = true) (rest : List Char) :
    skipGap (c :: rest) = c :: rest := by
  have hgap : ¬ isGap c = true := by
    intro hgap
    simp only [isGap, Bool.or_eq_true, beq_iff_eq] at hgap
    rcases hgap with ((rfl | rfl) | rfl) | rfl
    all_goals exact absurd h (by decide)
  exact List.dropWhile_cons_of_neg hgap

/-- In front of a value there is no gap, and no bracket that would close an empty array. -/
theorem Exact.afterText?_compactText {value : Json} (h : value.Exact) (rest : List Char) :
    afterText? [']'] (skipGap (compactText value rest)) = none := by
  obtain ⟨c, cs, hcs, hopens⟩ := h.exists_compactText rest
  have hclose : c ≠ ']' := by
    rintro rfl
    exact absurd hopens (by decide)
  rw [hcs, skipGap_of_opensValue hopens]
  exact if_neg hclose

/-! ## Steps of reading -/

section Steps

variable (n : Nat) (text : List Char)

theorem readValue_string :
    readValue (n + 1) ('"' :: text) = (do
      let (content, rest) ← readString text
      some (.string (String.ofList content), rest)) := rfl

/-- An array that does not end at once has a first value. -/
theorem readValue_array (h : afterText? [']'] (skipGap text) = none) :
    readValue (n + 1) ('[' :: text) = (do
      let (value, rest) ← readValue n text
      let (values, rest) ← readElements n rest
      some (.array (value :: values), rest)) := by
  have hskip : skipGap ('[' :: text) = '[' :: text := rfl
  rw [readValue]
  simp only [hskip, if_neg (show '[' ≠ '"' by decide), if_true, h]

/-- An object that does not end at once has a first member. -/
theorem readValue_object (h : afterText? ['}'] (skipGap text) = none) :
    readValue (n + 1) ('{' :: text) = (do
      let (key, rest) ← readKey text
      let (value, rest) ← readValue n rest
      let (members, rest) ← readMembers n [(key, value)] rest
      some (.object members, rest)) := by
  have hskip : skipGap ('{' :: text) = '{' :: text := rfl
  rw [readValue]
  simp only [hskip, if_neg (show '{' ≠ '"' by decide), if_neg (show '{' ≠ '[' by decide),
    if_true, h]

/-- What starts with a sign or a digit is a number. -/
theorem readValue_number {c : Char} (h : opensNumber c = true) :
    readValue (n + 1) (c :: text) = readScalar (c :: text) := by
  have hskip : skipGap (c :: text) = c :: text :=
    skipGap_of_opensValue (by rw [opensValue, h, Bool.true_or]) text
  rw [readValue]
  simp only [hskip, if_neg (Text.ne_of_true_of_false h (rfl : opensNumber '"' = false)),
    if_neg (Text.ne_of_true_of_false h (rfl : opensNumber '[' = false)),
    if_neg (Text.ne_of_true_of_false h (rfl : opensNumber '{' = false))]

theorem readElements_comma :
    readElements (n + 1) (',' :: text) = (do
      let (value, rest) ← readValue n text
      let (values, rest) ← readElements n rest
      some (value :: values, rest)) := rfl

theorem readMembers_comma (members : List (String × Json)) :
    readMembers (n + 1) members (',' :: text) = (do
      let (key, rest) ← readKey text
      let (value, rest) ← readValue n rest
      readMembers n (insert key value members) rest) := rfl

end Steps

/-! ## Steps suffice -/

mutual

/-- The text of a value is no shorter than what follows it. -/
theorem length_le_compactText : ∀ (value : Json) (rest : List Char),
    rest.length ≤ (compactText value rest).length
  | .null, rest => by simp [compactText]
  | .bool b, rest => by simp [compactText]
  | .integer n, rest => by simp [compactText]
  | .real x, rest => by simp [compactText]
  | .string s, rest => by simp [compactText]
  | .array [], rest => by
    simp only [compactText, List.length_cons]
    omega
  | .array (value :: values), rest => by
    have hvalue := length_le_compactText value (compactElements values (']' :: rest))
    have hvalues := length_le_compactElements values (']' :: rest)
    simp only [compactText, List.length_cons] at *
    omega
  | .object [], rest => by
    simp only [compactText, List.length_cons]
    omega
  | .object ((key, value) :: members), rest => by
    have hvalue := length_le_compactText value (compactMembers members ('}' :: rest))
    have hmembers := length_le_compactMembers members ('}' :: rest)
    simp only [compactText, List.length_cons, List.length_append] at *
    omega

theorem length_le_compactElements : ∀ (values : List Json) (rest : List Char),
    rest.length ≤ (compactElements values rest).length
  | [], rest => Nat.le_refl _
  | value :: values, rest => by
    have hvalue := length_le_compactText value (compactElements values rest)
    have hvalues := length_le_compactElements values rest
    simp only [compactElements, List.length_cons]
    omega

theorem length_le_compactMembers : ∀ (members : List (String × Json)) (rest : List Char),
    rest.length ≤ (compactMembers members rest).length
  | [], rest => Nat.le_refl _
  | (key, value) :: members, rest => by
    have hvalue := length_le_compactText value (compactMembers members rest)
    have hmembers := length_le_compactMembers members rest
    simp only [compactMembers, List.length_cons, List.length_append]
    omega

end

/-! ## Reading back -/

/-- Further elements start with a comma or end the array, so a number in front of them ends. -/
theorem endsNumber_compactElements (values : List Json) (rest : List Char) :
    EndsNumber (compactElements values (']' :: rest)) := by
  cases values with
  | nil => rfl
  | cons value values => rfl

theorem endsNumber_compactMembers (members : List (String × Json)) (rest : List Char) :
    EndsNumber (compactMembers members ('}' :: rest)) := by
  cases members with
  | nil => rfl
  | cons member members => rfl

mutual

/-- The text of a value is read as that value, in front of any rest that ends a number. -/
theorem readValue_compactText : ∀ (value : Json) (n : Nat) (rest : List Char), value.Exact →
    EndsNumber rest → (compactText value rest).length < n →
    readValue n (compactText value rest) = some (value, rest)
  | _, 0, _, _, _, hn => absurd hn (Nat.not_lt_zero _)
  | .null, n + 1, rest, _, _, _ => rfl
  | .bool true, n + 1, rest, _, _, _ => rfl
  | .bool false, n + 1, rest, _, _, _ => rfl
  | .integer k, n + 1, rest, _, hrest, _ => by
    obtain ⟨c, cs, hcs, hopens⟩ := exists_integerText k
    have hread := readScalar_integerText k hrest
    rw [compactText]
    rw [hcs, List.cons_append] at hread ⊢
    rw [readValue_number n _ hopens, hread]
  | .real x, n + 1, rest, h, _, _ => by cases h
  | .string s, n + 1, rest, _, _, _ => by
    rw [compactText, stringText_append, readValue_string, readString_flatMap]
    simp
  | .array [], n + 1, rest, _, _, _ => rfl
  | .array (value :: values), n + 1, rest, h, _, hn => by
    cases h with
    | array hexact =>
      obtain ⟨hvalue, hvalues⟩ := List.forall_mem_cons.1 hexact
      rw [compactText] at hn ⊢
      rw [List.length_cons] at hn
      have hlength := length_le_compactText value (compactElements values (']' :: rest))
      have hread := readValue_compactText value n _ hvalue (endsNumber_compactElements values rest)
        (by omega)
      have hothers := readElements_compactElements values n rest hvalues (by omega)
      rw [readValue_array n _ (hvalue.afterText?_compactText _), hread]
      simp [hothers]
  | .object [], n + 1, rest, _, _, _ => rfl
  | .object ((key, value) :: members), n + 1, rest, h, _, hn => by
    cases h with
    | object hnodup hexact =>
      obtain ⟨hvalue, hmembers⟩ := List.forall_mem_cons.1 hexact
      rw [compactText] at hn ⊢
      rw [List.length_cons, List.length_append, List.length_cons] at hn
      have hlength := length_le_compactText value (compactMembers members ('}' :: rest))
      have hread := readValue_compactText value n _ hvalue (endsNumber_compactMembers members rest)
        (by omega)
      have hothers := readMembers_compactMembers members [(key, value)] n rest hmembers hnodup
        (by omega)
      have hopen (text : List Char) :
          afterText? ['}'] (skipGap (stringText key.toList ++ text)) = none := by
        rw [stringText_append]
        rfl
      rw [readValue_object n _ (hopen _), readKey_stringText]
      simp [hread, hothers]

/-- The further elements of an array are read to its end. -/
theorem readElements_compactElements : ∀ (values : List Json) (n : Nat) (rest : List Char),
    (∀ value ∈ values, value.Exact) → (compactElements values (']' :: rest)).length < n →
    readElements n (compactElements values (']' :: rest)) = some (values, rest)
  | _, 0, _, _, hn => absurd hn (Nat.not_lt_zero _)
  | [], n + 1, rest, _, _ => rfl
  | value :: values, n + 1, rest, h, hn => by
    obtain ⟨hvalue, hvalues⟩ := List.forall_mem_cons.1 h
    rw [compactElements] at hn ⊢
    rw [List.length_cons] at hn
    have hlength := length_le_compactText value (compactElements values (']' :: rest))
    have hread := readValue_compactText value n _ hvalue (endsNumber_compactElements values rest)
      (by omega)
    have hothers := readElements_compactElements values n rest hvalues (by omega)
    rw [readElements_comma, hread]
    simp [hothers]

/-- The further members of an object are read to its end, and join those before them. -/
theorem readMembers_compactMembers : ∀ (members before : List (String × Json)) (n : Nat)
    (rest : List Char), (∀ m ∈ members, m.2.Exact) → ((before ++ members).map Prod.fst).Nodup →
    (compactMembers members ('}' :: rest)).length < n →
    readMembers n before (compactMembers members ('}' :: rest)) = some (before ++ members, rest)
  | _, _, 0, _, _, _, hn => absurd hn (Nat.not_lt_zero _)
  | [], before, n + 1, rest, _, _, _ => by
    rw [List.append_nil]
    rfl
  | (key, value) :: members, before, n + 1, rest, h, hnodup, hn => by
    obtain ⟨hvalue, hmembers⟩ := List.forall_mem_cons.1 h
    rw [compactMembers] at hn ⊢
    rw [List.length_cons, List.length_append, List.length_cons] at hn
    have hlength := length_le_compactText value (compactMembers members ('}' :: rest))
    have hread := readValue_compactText value n _ hvalue (endsNumber_compactMembers members rest)
      (by omega)
    have hnew : key ∉ before.map Prod.fst := by
      rw [List.map_append, List.nodup_append] at hnodup
      exact fun hmem => hnodup.2.2 key hmem key List.mem_cons_self rfl
    rw [List.append_cons] at hnodup
    have hothers := readMembers_compactMembers members (before ++ [(key, value)]) n rest hmembers
      hnodup (by omega)
    rw [readMembers_comma, readKey_stringText]
    simp [hread, insert_of_not_mem hnew, hothers]

end

/-! ## Whole texts -/

mutual

/-- The text of a value is the same in front of any rest. -/
theorem compactText_append : ∀ (value : Json) (rest back : List Char),
    compactText value (rest ++ back) = compactText value rest ++ back
  | .null, rest, back => by simp [compactText]
  | .bool b, rest, back => by simp [compactText]
  | .integer n, rest, back => by simp [compactText]
  | .real x, rest, back => by simp [compactText]
  | .string s, rest, back => by simp [compactText]
  | .array [], rest, back => by simp [compactText]
  | .array (value :: values), rest, back => by
    rw [compactText, compactText, ← List.cons_append, compactElements_append values,
      compactText_append value, List.cons_append]
  | .object [], rest, back => by simp [compactText]
  | .object ((key, value) :: members), rest, back => by
    have hmembers := compactMembers_append members ('}' :: rest) back
    rw [List.cons_append] at hmembers
    rw [compactText, compactText, hmembers, compactText_append value, List.cons_append,
      List.append_assoc, List.cons_append]

theorem compactElements_append : ∀ (values : List Json) (rest back : List Char),
    compactElements values (rest ++ back) = compactElements values rest ++ back
  | [], rest, back => rfl
  | value :: values, rest, back => by
    rw [compactElements, compactElements, compactElements_append values, compactText_append value,
      List.cons_append]

theorem compactMembers_append : ∀ (members : List (String × Json)) (rest back : List Char),
    compactMembers members (rest ++ back) = compactMembers members rest ++ back
  | [], rest, back => rfl
  | (key, value) :: members, rest, back => by
    rw [compactMembers, compactMembers, compactMembers_append members, compactText_append value,
      List.cons_append, List.append_assoc, List.cons_append]

end

/-- The compact text of a value is read as that value, in front of any rest that ends a number. -/
theorem Exact.readValue_append {value : Json} (h : value.Exact) {rest : List Char}
    (hrest : EndsNumber rest) :
    readValue ((value.compact.toList ++ rest).length + 1) (value.compact.toList ++ rest) =
      some (value, rest) := by
  rw [compact, String.toList_ofList, ← compactText_append, List.nil_append]
  exact readValue_compactText value _ rest h hrest (Nat.lt_succ_self _)

/-- A line that is the compact text of a value is read as that value. -/
theorem Exact.parse?_line {value : Json} (h : value.Exact) :
    parse? (value.compact ++ "\n") = some value := by
  have hread := @Exact.readValue_append value h ['\n'] rfl
  rw [parse?, ← String.length_toList, String.toList_append]
  change (readValue ((value.compact.toList ++ ['\n']).length + 1)
    (value.compact.toList ++ ['\n'])).bind _ = _
  rw [hread]
  rfl

/-- The compact text of a value without fractions and repeated keys is read as that value, with its
members in order, and to the end of the text; so no other such value has the same text. -/
theorem readValue_compact (value : Json) (h : value.Exact) :
    readValue (value.compact.length + 1) value.compact.toList = some (value, []) ∧
      parse? value.compact = some value ∧
      ∀ other : Json, other.Exact → other.compact = value.compact → other = value := by
  have hread {v : Json} (hv : v.Exact) :
      readValue (v.compact.length + 1) v.compact.toList = some (v, []) := by
    have hall := @Exact.readValue_append v hv [] rfl
    rwa [List.append_nil, String.length_toList] at hall
  refine ⟨hread h, ?_, ?_⟩
  · rw [parse?, hread h]
    rfl
  · intro other hother heq
    have hboth := hread hother
    rw [heq, hread h] at hboth
    cases hboth
    rfl

/-- An object whose keys and strings hold quotes, backslashes and line breaks. -/
def nested : Json :=
  .object [("a\"", .array [.integer (-50), .object [], .array []]), ("", .string "\\\n")]

/-- Escapes, a sign and empty containers are read back. -/
theorem readValue_compact_nested :
    nested.Exact ∧
      parse? "\x7b\"a\\\"\":[-50,\x7b\x7d,[]],\"\":\"\\\\\\n\"\x7d" = some nested := by
  have hexact : nested.Exact := by
    refine .object (by decide) ?_
    simp only [List.forall_mem_cons]
    refine ⟨.array ?_, .string _, List.forall_mem_nil _⟩
    simp only [List.forall_mem_cons]
    exact ⟨.integer _, .object List.nodup_nil (List.forall_mem_nil _),
      .array (List.forall_mem_nil _), List.forall_mem_nil _⟩
  have htext : nested.compact =
      "\x7b\"a\\\"\":[-50,\x7b\x7d,[]],\"\":\"\\\\\\n\"\x7d" := by decide
  exact ⟨hexact, htext ▸ (readValue_compact nested hexact).2.1⟩

end Json

end Dialogue
