import Dialogue.Proofs.Rendered.Lexeme

/-!
# Two texts of one value

The indented text of a JSON value differs from the compact one by blanks alone, and these stand
outside of strings. `Json.stripped` drops such blanks from any text; to know where strings start and
end, it has to pass over escaped characters. A string, whatever its content, is left as it is
(`Scan.stripped_stringText`), and so is a number (`Scan.stripped_number`). The main result is
`Json.stripped_indented`.
-/

namespace Dialogue

/-! ## Dropping blanks -/

/-- Where a scan of a JSON text stands: outside of strings, inside of one, or in a string right
after a backslash that escapes what comes next. -/
inductive Scan where
  | outside
  | inside
  | escaped
  deriving DecidableEq, Repr

namespace Scan

/-- Where a scan stands after a character. -/
def next : Scan → Char → Scan
  | .outside, c => if c = '"' then .inside else .outside
  | .inside, c => if c = '"' then .outside else if c = '\\' then .escaped else .inside
  | .escaped, _ => .inside

/-- Whether a character is a blank that does not belong to a string. -/
def drops (scan : Scan) (c : Char) : Bool := scan = .outside ∧ (c = ' ' ∨ c = '\n')

/-- A text without its spaces and newlines outside of strings. -/
def stripped (scan : Scan) : List Char → List Char
  | [] => []
  | c :: rest =>
    if scan.drops c then (scan.next c).stripped rest else c :: (scan.next c).stripped rest

/-! ### Runs of characters -/

/-- Blanks between the parts of a text are dropped. -/
theorem stripped_blanks {blanks : List Char} (h : ∀ c ∈ blanks, c = ' ' ∨ c = '\n')
    (rest : List Char) : outside.stripped (blanks ++ rest) = outside.stripped rest := by
  induction blanks with
  | nil => rfl
  | cons c blanks ih =>
    obtain ⟨hc, hblanks⟩ := List.forall_mem_cons.1 h
    have hquote : c ≠ '"' := by
      rintro rfl
      exact absurd hc (by decide)
    have hdrops : outside.drops c = true := decide_eq_true ⟨rfl, hc⟩
    rw [List.cons_append, stripped, if_pos hdrops, next, if_neg hquote, ih hblanks]

/-- Outside of strings, all but blanks and quotes stays. -/
theorem stripped_plain {text : List Char} (h : ∀ c ∈ text, c ≠ '"' ∧ c ≠ ' ' ∧ c ≠ '\n')
    (rest : List Char) : outside.stripped (text ++ rest) = text ++ outside.stripped rest := by
  induction text with
  | nil => rfl
  | cons c text ih =>
    obtain ⟨⟨hquote, hspace, hnewline⟩, htext⟩ := List.forall_mem_cons.1 h
    have hdrops : outside.drops c ≠ true := by simp [drops, hspace, hnewline]
    rw [List.cons_append, stripped, if_neg hdrops, next, if_neg hquote, ih htext, List.cons_append]

theorem stripped_number {text : List Char} (h : ∀ c ∈ text, Json.isNumberPart c = true)
    (rest : List Char) : outside.stripped (text ++ rest) = text ++ outside.stripped rest := by
  apply stripped_plain
  intro c hc
  have hpart := h c hc
  refine ⟨?_, ?_, ?_⟩
  all_goals
    rintro rfl
    exact absurd hpart (by decide)

/-! ### Strings -/

/-- Inside of a string nothing is dropped, and what is neither quote nor backslash leaves the scan
inside of it. -/
theorem stripped_inside {c : Char} (hquote : c ≠ '"') (hback : c ≠ '\\') (rest : List Char) :
    inside.stripped (c :: rest) = c :: inside.stripped rest := by
  have hdrops : inside.drops c ≠ true := by simp [drops]
  rw [stripped, if_neg hdrops, next, if_neg hquote, if_neg hback]

/-- After a backslash any character is passed over. -/
theorem stripped_backslash (c : Char) (rest : List Char) :
    inside.stripped ('\\' :: c :: rest) = '\\' :: c :: inside.stripped rest := rfl

/-- What a character is written as does not end the string. -/
theorem stripped_escape (c : Char) (rest : List Char) :
    inside.stripped (Json.escape c ++ rest) = Json.escape c ++ inside.stripped rest := by
  have hdigit : ∀ n < 16, Text.hexDigit n ≠ '"' ∧ Text.hexDigit n ≠ '\\' := by decide
  rcases Json.escape_cases c with ⟨heq, hquote, hback, -⟩ | ⟨letter, heq, -⟩ | ⟨hcontrol, heq⟩
  · rw [heq]
    exact stripped_inside hquote hback rest
  · rw [heq]
    exact stripped_backslash letter rest
  · obtain ⟨hhighQuote, hhighBack⟩ := hdigit (c.toNat / 16) (by omega)
    obtain ⟨hlowQuote, hlowBack⟩ := hdigit (c.toNat % 16) (by omega)
    have hzero (text : List Char) : inside.stripped ('0' :: text) = '0' :: inside.stripped text :=
      stripped_inside (by decide) (by decide) text
    simp only [heq, List.cons_append, List.nil_append]
    rw [stripped_backslash, hzero, hzero, stripped_inside hhighQuote hhighBack,
      stripped_inside hlowQuote hlowBack]

theorem stripped_stringText (text rest : List Char) :
    outside.stripped (Json.stringText text ++ rest) =
      Json.stringText text ++ outside.stripped rest := by
  have hinside : inside.stripped (text.flatMap Json.escape ++ '"' :: rest) =
      text.flatMap Json.escape ++ '"' :: outside.stripped rest := by
    induction text with
    | nil => rfl
    | cons c text ih =>
      rw [List.flatMap_cons, List.append_assoc, stripped_escape, ih, List.append_assoc]
  simp only [Json.stringText, List.cons_append, List.append_assoc, List.nil_append]
  exact congrArg ('"' :: ·) hinside

theorem stripped_newline (depth : Nat) (rest : List Char) :
    outside.stripped (Json.newline depth ++ rest) = outside.stripped rest := by
  apply stripped_blanks
  intro c hc
  rcases List.mem_cons.1 hc with hc | hc
  · exact Or.inr hc
  · exact Or.inl (List.eq_of_mem_replicate hc)

theorem stripped_space (rest : List Char) :
    outside.stripped (' ' :: rest) = outside.stripped rest := rfl

/-- A mark between the parts of a text stays. -/
theorem stripped_mark {c : Char} (h : c ≠ '"' ∧ c ≠ ' ' ∧ c ≠ '\n') (rest : List Char) :
    outside.stripped (c :: rest) = c :: outside.stripped rest :=
  stripped_plain (List.forall_mem_singleton.2 h) rest

end Scan

/-! ## Indented text -/

namespace Json

open Scan

mutual

/-- Without its blanks, the indented text of a value is the compact one, whatever follows. -/
theorem stripped_indentedText (depth : Nat) : ∀ (value : Json) (rest : List Char),
    outside.stripped (indentedText depth value rest) = compactText value (outside.stripped rest)
  | .null, rest => stripped_plain (by simp [nullText]) rest
  | .bool b, rest => stripped_plain (by cases b <;> simp [boolText]) rest
  | .integer n, rest => stripped_number (fun _ => isNumberPart_of_mem_integerText) rest
  | .real x, rest => stripped_number (fun _ => isNumberPart_of_mem_realText) rest
  | .string s, rest => stripped_stringText s.toList rest
  | .array [], rest => rfl
  | .array (value :: values), rest => by
    rw [indentedText, compactText, stripped_mark (by decide), stripped_newline,
      stripped_indentedText (depth + 1) value, stripped_indentedElements (depth + 1) values,
      stripped_newline, stripped_mark (by decide)]
  | .object [], rest => rfl
  | .object ((key, value) :: members), rest => by
    rw [indentedText, compactText, stripped_mark (by decide), List.append_assoc, stripped_newline,
      stripped_stringText, stripped_mark (by decide), stripped_space,
      stripped_indentedText (depth + 1) value, stripped_indentedMembers (depth + 1) members,
      stripped_newline, stripped_mark (by decide)]

/-- The same of the further elements of an array. -/
theorem stripped_indentedElements (depth : Nat) : ∀ (values : List Json) (rest : List Char),
    outside.stripped (indentedElements depth values rest) =
      compactElements values (outside.stripped rest)
  | [], rest => rfl
  | value :: values, rest => by
    rw [indentedElements, compactElements, stripped_mark (by decide), stripped_newline,
      stripped_indentedText depth value, stripped_indentedElements depth values]

/-- The same of the further members of an object. -/
theorem stripped_indentedMembers (depth : Nat) :
    ∀ (members : List (String × Json)) (rest : List Char),
    outside.stripped (indentedMembers depth members rest) =
      compactMembers members (outside.stripped rest)
  | [], rest => rfl
  | (key, value) :: members, rest => by
    rw [indentedMembers, compactMembers, stripped_mark (by decide), List.append_assoc,
      stripped_newline, stripped_stringText, stripped_mark (by decide), stripped_space,
      stripped_indentedText depth value, stripped_indentedMembers depth members]

end

/-- A text without its spaces and newlines outside of strings. -/
def stripped (text : String) : String := String.ofList (outside.stripped text.toList)

/-- Both texts of a value are the same but for the blanks outside of strings. -/
theorem stripped_indented (value : Json) : stripped value.indented = value.compact := by
  rw [stripped, indented, String.toList_ofList, stripped_indentedText]
  rfl

/-- The blanks of a string stay, also after a quote in it. -/
example : stripped "[\n  \"a \\\" b\",\n  null\n]" = "[\"a \\\" b\",null]" := by decide

end Json

end Dialogue
