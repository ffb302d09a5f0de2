import Dialogue.CommandLine
import Dialogue.Proofs.Place.Position

/-!
# The line that is reported

A diagnostic has the line around its place, between the newlines of the text; the command line
prints the line with the number of the diagnostic, out of the lines of the text. The two are found
in different ways: in the list of lines, a line has lost the carriage return before its newline, and
there is no line after the last newline. `CommandLine.report_line` says that they are the same line
nevertheless, up to that carriage return, and that the mark below the line stands at a character of
it or right after its end.
-/

namespace Dialogue

namespace Text

/-! ## The list of lines -/

/-- A line without the carriage return at its end, if there is one. -/
def withoutReturn : List Char → List Char
  | [] => []
  | ['\r'] => []
  | c :: line => c :: withoutReturn line

theorem eq_withoutReturn_or (line : List Char) :
    line = withoutReturn line ∨ line = withoutReturn line ++ ['\r'] := by
  fun_induction withoutReturn line with
  | case1 => exact Or.inl rfl
  | case2 => exact Or.inr rfl
  | case3 c line _ ih =>
    rcases ih with ih | ih
    · exact Or.inl (congrArg (List.cons c) ih)
    · exact Or.inr (congrArg (List.cons c) ih)

/-- A character that ends no line is added to the first line. -/
theorem lines_cons {c : Char} {text : List Char} (hc : c ≠ '\n')
    (hreturn : c = '\r' → ∀ rest, text ≠ '\n' :: rest) :
    lines (c :: text) =
      match lines text with
      | [] => [[c]]
      | line :: others => (c :: line) :: others := by
  rw [lines.eq_def]
  split
  · rename_i heq
    cases heq
  · rename_i rest heq
    obtain ⟨hr, htext⟩ := List.cons.inj heq
    exact absurd htext (hreturn hr rest)
  · rename_i rest heq
    exact absurd (List.cons.inj heq).1 hc
  · rename_i heq
    cases heq
    rfl

/-- A line that a newline ends, and the lines after it. -/
theorem lines_append_newline {line : List Char} (h : '\n' ∉ line) (rest : List Char) :
    lines (line ++ '\n' :: rest) = withoutReturn line :: lines rest := by
  fun_induction withoutReturn line with
  | case1 => rw [List.nil_append, lines]
  | case2 => rw [List.singleton_append, lines]
  | case3 c line hlast ih =>
    rw [List.mem_cons, not_or] at h
    have hreturn : c = '\r' → ∀ more, line ++ '\n' :: rest ≠ '\n' :: more := by
      intro hc more heq
      cases line with
      | nil => exact hlast hc rfl
      | cons d line =>
        rw [(List.cons.inj heq).1, List.mem_cons, not_or] at h
        exact h.2.1 rfl
    rw [List.cons_append, lines_cons (Ne.symm h.1) hreturn, ih h.2]

/-- A text without a newline is one line, unless it is empty. -/
theorem lines_of_not_mem {line : List Char} (h : '\n' ∉ line) (hne : line ≠ []) :
    lines line = [line] := by
  induction line with
  | nil => exact absurd rfl hne
  | cons c line ih =>
    rw [List.mem_cons, not_or] at h
    have hreturn : c = '\r' → ∀ more, line ≠ '\n' :: more := by
      rintro - more rfl
      exact h.2 List.mem_cons_self
    rw [lines_cons (Ne.symm h.1) hreturn]
    by_cases hnil : line = []
    · rw [hnil, lines]
    · rw [ih h.2 hnil]

theorem tail_lines_cons {c : Char} (hc : c ≠ '\n') (text : List Char) :
    (lines (c :: text)).tail = (lines text).tail := by
  by_cases hreturn : ∃ rest, c = '\r' ∧ text = '\n' :: rest
  · obtain ⟨rest, rfl, rfl⟩ := hreturn
    rw [lines, lines]
  · have hnot : c = '\r' → ∀ rest, text ≠ '\n' :: rest := by
      intro hr rest htext
      exact hreturn ⟨rest, hr, htext⟩
    rw [lines_cons hc hnot]
    cases lines text with
    | nil => rfl
    | cons line others => rfl

/-- Dropping lines from a text drops as many from the list of its lines. -/
theorem drop_lines {n : Nat} {text rest : List Char} (h : dropLines? n text = some rest) :
    (lines text).drop n = lines rest := by
  fun_induction dropLines? n text with
  | case1 text => rw [Option.some.inj h, List.drop_zero]
  | case2 => cases h
  | case3 n text ih => rw [lines, List.drop_succ_cons, ih h]
  | case4 n c text hc ih => rw [← List.drop_tail, tail_lines_cons hc, List.drop_tail, ih h]

/-! ## The line around a place -/

theorem newline_not_mem_firstLine (text : List Char) : '\n' ∉ firstLine text := by
  intro h
  have hall := List.all_eq_true.1 List.all_takeWhile '\n' h
  simp at hall

/-- A text is its first line, or that line and a newline before the rest. -/
theorem firstLine_cases (text : List Char) :
    text = firstLine text ∨ ∃ rest, text = firstLine text ++ '\n' :: rest := by
  induction text with
  | nil => exact Or.inl rfl
  | cons c text ih =>
    by_cases hc : c = '\n'
    · refine Or.inr ⟨text, ?_⟩
      simp [firstLine, hc]
    · have hfirst : firstLine (c :: text) = c :: firstLine text := by simp [firstLine, hc]
      rw [hfirst]
      rcases ih with ih | ⟨rest, ih⟩
      · exact Or.inl (congrArg (List.cons c) ih)
      · exact Or.inr ⟨rest, congrArg (List.cons c) ih⟩

theorem lastLine_cases (text : List Char) :
    text = lastLine text ∨ ∃ above, text = above ++ '\n' :: lastLine text := by
  induction text using List.reverseRecOn with
  | nil => exact Or.inl (lastLine_of_not_mem List.not_mem_nil).symm
  | append_singleton text c ih =>
    rw [lastLine_concat]
    by_cases hc : c = '\n'
    · rw [if_pos hc, hc]
      exact Or.inr ⟨text, rfl⟩
    · rw [if_neg hc]
      rcases ih with ih | ⟨above, ih⟩
      · exact Or.inl (congrArg (· ++ [c]) ih)
      · refine Or.inr ⟨above, ?_⟩
        rw [← List.cons_append, ← List.append_assoc, ← ih]

/-- The first line in the list of lines, where a text without lines has an empty one. -/
theorem firstLine_eq_or (text : List Char) :
    firstLine text = (lines text).head?.getD [] ∨
      firstLine text = (lines text).head?.getD [] ++ ['\r'] := by
  have hline := newline_not_mem_firstLine text
  rcases firstLine_cases text with htext | ⟨rest, htext⟩
  · rw [← htext] at hline ⊢
    by_cases hnil : text = []
    · rw [hnil, lines]
      exact Or.inl rfl
    · rw [lines_of_not_mem hline hnil]
      exact Or.inl rfl
  · have hlines := lines_append_newline hline rest
    rw [← htext] at hlines
    rw [hlines]
    exact eq_withoutReturn_or (firstLine text)

theorem firstLine_lastLine_append (before rest : List Char) :
    firstLine (lastLine before ++ rest) = lineAround before rest := by
  have hall : ∀ c ∈ lastLine before, (c != '\n') = true := by
    intro c hc
    rw [bne_iff_ne]
    rintro rfl
    exact newline_notMem_lastLine before hc
  rw [firstLine, List.takeWhile_append_of_pos hall]
  rfl

/-- The line around a place is the line with its number, perhaps with a carriage return that the
list of lines leaves out. -/
theorem lineAround_eq_or (before rest : List Char) :
    lineAround before rest = lineNumber (before ++ rest) (Position.after before).line ∨
      lineAround before rest =
        lineNumber (before ++ rest) (Position.after before).line ++ ['\r'] := by
  have hhead : (lines (lastLine before ++ rest)).head? =
      (lines (before ++ rest))[before.count '\n']? := by
    rw [← drop_lines (dropLines?_after before rest), List.head?_drop]
  have hline : lineNumber (before ++ rest) (Position.after before).line =
      (lines (lastLine before ++ rest)).head?.getD [] := by
    rw [hhead]
    rfl
  rw [hline, ← firstLine_lastLine_append]
  exact firstLine_eq_or _

/-- A line of a text that an offset lies in or at the end of: what stands between two newlines, or
between a newline and an end of the text. -/
def LineAt (text : List Char) (offset : Nat) (line : List Char) : Prop :=
  ∃ above left right below, text = above ++ (left ++ right) ++ below ∧ line = left ++ right ∧
    offset = byteLength (above ++ left) ∧ '\n' ∉ line ∧
    (above = [] ∨ above.getLast? = some '\n') ∧ (below = [] ∨ below.head? = some '\n')

theorem lineAt_lineAround (before rest : List Char) :
    LineAt (before ++ rest) (byteLength before) (lineAround before rest) := by
  obtain ⟨above, hbefore, habove⟩ : ∃ above, before = above ++ lastLine before ∧
      (above = [] ∨ above.getLast? = some '\n') := by
    rcases lastLine_cases before with hbefore | ⟨above, hbefore⟩
    · exact ⟨[], hbefore, Or.inl rfl⟩
    · refine ⟨above ++ ['\n'], ?_, Or.inr List.getLast?_concat⟩
      rw [List.append_assoc]
      exact hbefore
  obtain ⟨below, hrest, hbelow⟩ : ∃ below, rest = firstLine rest ++ below ∧
      (below = [] ∨ below.head? = some '\n') := by
    rcases firstLine_cases rest with hrest | ⟨below, hrest⟩
    · exact ⟨[], by rw [List.append_nil]; exact hrest, Or.inl rfl⟩
    · exact ⟨'\n' :: below, hrest, Or.inr rfl⟩
  refine ⟨above, lastLine before, firstLine rest, below, ?_, rfl, ?_, ?_, habove, hbelow⟩
  · rw [← List.append_assoc, ← hbefore, List.append_assoc, ← hrest]
  · rw [← hbefore]
  · rw [lineAround, List.mem_append, not_or]
    exact ⟨newline_notMem_lastLine before, newline_not_mem_firstLine rest⟩

end Text

open Text (LineAt lineNumber lineAround skipBlanks)

theorem compile_of_read {source : String} {d : Diagnostic} (h : Script.read source = .error d) :
    compile source = .error (.reading d) := by
  rw [compile, h]
  rfl

namespace CommandLine

theorem compileOutcome_of_read {source : String} {d : Diagnostic}
    (h : Script.read source = .error d) {options : Options}
    (hoptions : options.jsonErrors = false) :
    compileOutcome options source = ⟨1, "", report source (.reading d)⟩ := by
  rw [compileOutcome, compile_of_read h]
  simp only [hoptions, Bool.false_eq_true, if_false]

/-- The command line and the diagnostic report the same line. Where reading fails, the printed line
is the one around the place of the fault, which may have a carriage return at its end besides; the
snippet is this line without leading blanks; and the mark is printed below a character of the line
or right after its end. -/
theorem report_line (source : String) (d : Diagnostic) (h : Script.read source = .error d) :
    ∃ printed line,
      (∀ options, options.jsonErrors = false → compileOutcome options source =
        ⟨1, "", "ERROR AT LINE " ++ toString d.position.line ++ ":\n" ++
          String.ofList printed ++ "\n" ++
          String.ofList (List.replicate d.position.column ' ') ++ "^\n" ++ d.message ++ "\n"⟩) ∧
      printed = lineNumber source.toList d.position.line ∧
      LineAt source.toList d.position.offset line ∧
      (line = printed ∨ line = printed ++ ['\r']) ∧
      (d.snippet = String.ofList (skipBlanks printed) ∨
        d.snippet = String.ofList (skipBlanks (printed ++ ['\r']))) ∧
      d.position.column ≤ line.length := by
  refine ⟨lineNumber source.toList d.position.line, ?_⟩
  obtain ⟨fault, before, -, hsource, hd⟩ := Script.exists_fault_of_read h
  refine ⟨lineAround before fault.rest, fun options hoptions => ?_, rfl, ?_⟩
  · rw [compileOutcome_of_read h hoptions]
    rfl
  have hline := Text.lineAround_eq_or before fault.rest
  rw [hsource, hd]
  refine ⟨Text.lineAt_lineAround before fault.rest, hline, ?_, ?_⟩
  · rcases hline with hline | hline
    · refine Or.inl ?_
      rw [Diagnostic.between, ← hline]
    · refine Or.inr ?_
      rw [Diagnostic.between, ← hline]
  · change (Text.lastLine before).length ≤ (lineAround before fault.rest).length
    rw [lineAround, List.length_append]
    exact Nat.le_add_right _ _

/-- A fault on a line that ends in a carriage return and a newline. -/
theorem report_line_return :
    ∃ line, LineAt "act x\r\nhop ]\r\n".toList 11 line ∧
      (line = "hop ]".toList ∨ line = "hop ]\r".toList) ∧ 4 ≤ line.length := by
  have hread : Script.read "act x\r\nhop ]\r\n" =
      .error ⟨.mismatch, "Expected an expression", ⟨2, 4, 11⟩, "hop ]\r"⟩ := by decide +kernel
  obtain ⟨printed, line, -, hprinted, hline, hsame, -, hcolumn⟩ := report_line _ _ hread
  have hnumber : lineNumber "act x\r\nhop ]\r\n".toList 2 = "hop ]".toList := by decide
  rw [hprinted, hnumber] at hsame
  exact ⟨line, hline, hsame, hcolumn⟩

end CommandLine

end Dialogue
