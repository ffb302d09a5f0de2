import Dialogue.CommandLine
import Dialogue.Proofs.Program.Compiled
import Dialogue.Proofs.Rendered.Exact

/-!
# One line for each run

With `--compact` and `--json-errors` a run is meant to be read by another program, one line at a
time. So whatever the source text holds, what is printed has one newline, at its end. Newlines and
other control characters of the source can reach the output in names and texts of the program, in
the line around a fault, and in the wording of a failure, which may hold JSON text itself. All of
these are strings of a JSON value, and the compact text of a JSON value has no control character at
all (`Json.printable_compact`). The line is read back as that value, if the numbers of a program are
integers. The main result is `CommandLine.run?_singleLine`.
-/

namespace Dialogue

namespace Text

/-- A text without control characters: every character is a space or comes after it. -/
def Printable (text : List Char) : Prop := ∀ c ∈ text, 0x20 ≤ c.toNat

@[simp] theorem printable_nil : Printable [] := List.forall_mem_nil _

@[simp] theorem printable_cons {c : Char} {text : List Char} :
    Printable (c :: text) ↔ 0x20 ≤ c.toNat ∧ Printable text := List.forall_mem_cons

@[simp] theorem printable_append {front back : List Char} :
    Printable (front ++ back) ↔ Printable front ∧ Printable back := List.forall_mem_append

/-- A text that is one line: a newline at its end, and no other control character. -/
def IsLine (text : List Char) : Prop := ∃ line, text = line ++ ['\n'] ∧ Printable line

end Text

open Text (Printable IsLine printable_cons printable_append)

/-! ## Compact text -/

namespace Json

theorem printable_of_isNumberPart {text : List Char} (h : ∀ c ∈ text, isNumberPart c = true) :
    Printable text := by
  intro c hc
  have hpart := h c hc
  simp only [isNumberPart, Bool.or_eq_true, beq_iff_eq] at hpart
  rcases hpart with (((hdigit | rfl) | rfl) | rfl) | rfl
  · have hbounds := Reader.isDigit_bounds hdigit
    omega
  all_goals decide

/-- The letters that stand for a character after a backslash. -/
theorem le_toNat_of_unescape? {letter c : Char} (h : unescape? letter = some c) :
    0x20 ≤ letter.toNat := by
  unfold unescape? at h
  split_ifs at h with hself hb hf hn hr ht
  · rcases hself with rfl | rfl | rfl <;> decide
  all_goals
    subst letter
    decide

/-- Inside a string, no character is written as a control character. -/
theorem printable_escape (c : Char) : Printable (escape c) := by
  have hdigit : ∀ n < 16, 0x20 ≤ (Text.hexDigit n).toNat := by decide
  rcases escape_cases c with ⟨heq, -, -, hc⟩ | ⟨letter, heq, -, hread⟩ | ⟨hcontrol, heq⟩
  · simp [heq, hc]
  · simp [heq, le_toNat_of_unescape? hread]
  · have hhigh := hdigit (c.toNat / 16) (by omega)
    have hlow := hdigit (c.toNat % 16) (by omega)
    simp [heq, hhigh, hlow]

theorem printable_stringText (text : List Char) : Printable (stringText text) := by
  have hinside : Printable (text.flatMap escape) := by
    intro d hd
    obtain ⟨c, -, hd⟩ := List.mem_flatMap.1 hd
    exact printable_escape c d hd
  simp [stringText, hinside]

mutual

/-- The compact text of a value adds no control character to what follows it. -/
theorem printable_compactText : ∀ (value : Json) {rest : List Char}, Printable rest →
    Printable (compactText value rest)
  | .null, rest, h => by simp [compactText, nullText, h]
  | .bool b, rest, h => by cases b <;> simp [compactText, boolText, h]
  | .integer n, rest, h => printable_append.2
      ⟨printable_of_isNumberPart fun _ => isNumberPart_of_mem_integerText, h⟩
  | .real x, rest, h => printable_append.2
      ⟨printable_of_isNumberPart fun _ => isNumberPart_of_mem_realText, h⟩
  | .string s, rest, h => printable_append.2 ⟨printable_stringText s.toList, h⟩
  | .array [], rest, h => by simp [compactText, h]
  | .array (value :: values), rest, h => by
    have hvalues : Printable (compactElements values (']' :: rest)) :=
      printable_compactElements values (by simp [h])
    simp [compactText, printable_compactText value hvalues]
  | .object [], rest, h => by simp [compactText, h]
  | .object ((key, value) :: members), rest, h => by
    have hmembers : Printable (compactMembers members ('}' :: rest)) :=
      printable_compactMembers members (by simp [h])
    simp [compactText, printable_stringText, printable_compactText value hmembers]

/-- The same of the further elements of an array. -/
theorem printable_compactElements : ∀ (values : List Json) {rest : List Char}, Printable rest →
    Printable (compactElements values rest)
  | [], rest, h => h
  | value :: values, rest, h => by
    have hvalues := printable_compactElements values h
    simp [compactElements, printable_compactText value hvalues]

/-- The same of the further members of an object. -/
theorem printable_compactMembers : ∀ (members : List (String × Json)) {rest : List Char},
    Printable rest → Printable (compactMembers members rest)
  | [], rest, h => h
  | (key, value) :: members, rest, h => by
    have hmembers := printable_compactMembers members h
    simp [compactMembers, printable_stringText, printable_compactText value hmembers]

end

theorem printable_compact (value : Json) : Printable value.compact.toList := by
  rw [compact, String.toList_ofList]
  exact printable_compactText value Text.printable_nil

theorem isLine_compact (value : Json) : IsLine (value.compact ++ "\n").toList :=
  ⟨value.compact.toList, by simp, value.printable_compact⟩

end Json

/-! ## Runs -/

namespace CommandLine

/-- What a run prints for a source text when it is meant to be read by a program: the compact text
of the program or of the failure, on one line, and nothing else. The line is read back as the
failure, or as the program if its numbers are integers. -/
structure Outcome.Answers (source : String) (result : Outcome) : Prop where
  errors : result.errors = ""
  isLine : IsLine result.output.toList
  content :
    (∃ program, compile source = .ok program ∧ result.status = 0 ∧
      result.output = program.compact ++ "\n" ∧
      (program.Whole → Json.parse? result.output = some program)) ∨
    ∃ failure, compile source = .error failure ∧ result.status = 1 ∧
      result.output = failure.toJson.compact ++ "\n" ∧
      Json.parse? result.output = some failure.toJson

theorem answers_compileOutcome {options : Options} (hcompact : options.compact = true)
    (hjson : options.jsonErrors = true) (source : String) :
    (compileOutcome options source).Answers source := by
  unfold compileOutcome
  cases hcompile : compile source with
  | ok program =>
    simp only [hcompact, if_true]
    obtain ⟨script, -, hprogram⟩ := exists_isProgram_of_compile hcompile
    exact ⟨rfl, program.isLine_compact, Or.inl ⟨program, hcompile, rfl, rfl,
      fun hwhole => (hprogram.exact hwhole).parse?_line⟩⟩
  | error failure =>
    simp only [hjson, if_true]
    exact ⟨rfl, failure.toJson.isLine_compact, Or.inr ⟨failure, hcompile, rfl, rfl,
      failure.exact_toJson.parse?_line⟩⟩

/-- The bytes of a text are read as that text. -/
theorem decode_toUTF8 (source : String) : decode source.toUTF8 = .ok source := by
  have hvalid : source.toUTF8.IsValidUTF8 := source.isValidUTF8
  rw [decode, String.fromUTF8?, dif_pos hvalid]
  rfl

/-- Where the bytes that a run compiles come from: a file of its folder, or the standard input. -/
def Options.Input (options : Options) (folder : Folder) (standardInput bytes : ByteArray) : Prop :=
  match options.path with
  | some path => folder.locate path = .ok (.file bytes)
  | none => standardInput = bytes

theorem run?_of_input {options : Options} {folder : Folder} {standardInput : ByteArray}
    {source : String} {args : List String} (hargs : Command.parse? args = some (.compile options))
    (hinput : options.Input folder standardInput source.toUTF8) :
    run? folder standardInput args = some (compileOutcome options source) := by
  unfold Options.Input at hinput
  rw [run?, hargs, Option.map_some]
  cases hpath : options.path with
  | none =>
    simp only [hpath] at hinput ⊢
    rw [hinput, decode_toUTF8, outcome]
  | some path =>
    simp only [hpath] at hinput ⊢
    have hread : folder.read path = .ok source := by
      rw [Folder.read, hinput]
      exact decode_toUTF8 source
    rw [hread, outcome]

/-- A run that is meant to be read by a program prints one line, whatever the source text: with
`--compact --json-errors` and the text on the standard input, or with any other arguments that ask
for both and any other place that the text is read from. -/
theorem run?_singleLine (source : String) (folder : Folder) :
    (∃ result, run? folder source.toUTF8 ["--compact", "--json-errors"] = some result ∧
      result.Answers source) ∧
    ∀ (args : List String) (options : Options) (standardInput : ByteArray),
      Command.parse? args = some (.compile options) → options.compact = true →
      options.jsonErrors = true → options.Input folder standardInput source.toUTF8 →
      ∃ result, run? folder standardInput args = some result ∧ result.Answers source := by
  have hany (args : List String) (options : Options) (standardInput : ByteArray)
      (hargs : Command.parse? args = some (.compile options)) (hcompact : options.compact = true)
      (hjson : options.jsonErrors = true)
      (hinput : options.Input folder standardInput source.toUTF8) :
      ∃ result, run? folder standardInput args = some result ∧ result.Answers source :=
    ⟨_, run?_of_input hargs hinput, answers_compileOutcome hcompact hjson source⟩
  exact ⟨hany _ ⟨none, true, true⟩ _ (by decide) rfl rfl rfl, hany⟩

/-- A text whose faulty line has control characters in it, and the arguments in another order. -/
theorem run?_singleLine_controls :
    ∃ result, run? ⟨[]⟩ "act x\t\x07\r\n".toUTF8 ["--json-errors", "--compact"] = some result ∧
      result.status = 1 ∧ result.errors = "" ∧ IsLine result.output.toList := by
  have hread : Script.read "act x\t\x07\r\n" =
      .error ⟨.mismatch, "Expected an expression", ⟨1, 6, 6⟩, "act x\t\x07\r"⟩ := rfl
  obtain ⟨result, hrun, hanswers⟩ := (run?_singleLine "act x\t\x07\r\n" ⟨[]⟩).2
    ["--json-errors", "--compact"] ⟨none, true, true⟩ _ (by decide) rfl rfl rfl
  refine ⟨result, hrun, ?_, hanswers.errors, hanswers.isLine⟩
  rcases hanswers.content with ⟨program, hcompile, -⟩ | ⟨failure, -, hstatus, -⟩
  · rw [compile, hread] at hcompile
    cases hcompile
  · exact hstatus

end CommandLine

end Dialogue
