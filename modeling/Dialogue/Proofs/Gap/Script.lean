import Dialogue.Proofs.Gap.Statement
import Dialogue.Proofs.Seam.Script

/-!
# Scripts and gaps

Any run of blanks outside strings and comments can stand for any other one: the script that is read
is the same (`Script.read_reblanked`). A comment can be added after such a run, with one exception:
between a keyword that is assigned to and the sign of the assignment it makes the text unreadable
(`Script.read_commented`).
-/

namespace Dialogue

open Text (isBlank skip skipComment skipBlanks scan)

namespace Text

/-- A run of blanks. -/
structure IsBlankRun (run : String) : Prop where
  ne_empty : run ≠ ""
  blank : ∀ c ∈ run.toList, isBlank c = true

theorem IsBlankRun.head_append {run : String} (h : IsBlankRun run) (rest : List Char) :
    (run.toList ++ rest).head?.any isBlank = true := by
  cases hrun : run.toList with
  | nil => exact absurd (String.toList_eq_nil_iff.1 hrun) h.ne_empty
  | cons c more =>
    apply h.blank
    rw [hrun]
    exact List.mem_cons_self

/-- A comment ends with its line. -/
theorem skipComment_line {comment : List Char} (h : '\n' ∉ comment) (rest : List Char) :
    skipComment (comment ++ '\n' :: rest) = skip rest := by
  induction comment with
  | nil => rfl
  | cons c comment ih =>
    rw [List.mem_cons, not_or] at h
    obtain ⟨hc, hcomment⟩ := h
    rw [List.cons_append, skipComment, if_neg (Ne.symm hc), ih hcomment]

/-- A run of blanks and a comment are a gap. -/
theorem IsBlankRun.skip_comment {run comment : String} (h : IsBlankRun run)
    (hcomment : '\n' ∉ comment.toList) (rest : List Char) :
    skip (run.toList ++ '/' :: '/' :: (comment.toList ++ '\n' :: rest)) = skip rest := by
  rw [Reader.skip_blanks_append h.blank, skip, skipComment_line hcomment]

end Text

namespace Reader

/-- What a script read from one version of a text says about the other version. -/
theorem script_respaced (texts : Respacing) (hfront : scan .code texts.front = .code) {P : Script}
    (h : script (texts.front ++ texts.old) = .ok P) :
    script (texts.front ++ texts.new) = .ok P ∨
      (texts.Hides ∧
        ∃ cause, script (texts.front ++ texts.new) = .error ⟨cause, skip texts.new⟩) := by
  obtain ⟨rest, hread, hrest⟩ := script_eq_ok_iff.1 h
  -- a bound that is enough for both versions
  let m := (texts.front ++ texts.old).length + (texts.front ++ texts.new).length + 1
  have hbound : statements (statementAt m) m (texts.front ++ texts.new) =
      statements (statementAt ((texts.front ++ texts.new).length + 1))
        ((texts.front ++ texts.new).length + 1) (texts.front ++ texts.new) :=
    statements_of_le (Nat.lt_succ_self _) (by omega) (Nat.lt_succ_self _) (by omega)
  have hle : (texts.front ++ texts.old).length + 1 ≤ m := by omega
  have htracks := tracking_statements (tracking_statementAt hle) hle _ _
    (.ahead (List.suffix_refl texts.front) hfront)
  rw [hread, hbound] at htracks
  rcases htracks with ⟨⟨Q, rest'⟩, hread', rfl, htwins⟩ | ⟨hhides, cause, hread'⟩
  · have hskip := Respacing.Rests.skip htwins
    rw [hrest] at hskip
    exact Or.inl (script_eq_ok_iff.2 ⟨rest', hread', hskip.nil⟩)
  · refine Or.inr ⟨hhides, cause, ?_⟩
    rw [script, hread']
    rfl

end Reader

/-! ## Runs of blanks -/

/-- Blanks are interchangeable. Where code stands, any run of blanks can take the place of any
other one, and the same script is read. -/
theorem Script.read_reblanked (u w w' v : String) (P : Script) (hw : Text.IsBlankRun w)
    (hw' : Text.IsBlankRun w') (hu : scan .code u.toList = .code)
    (h : Script.read (u ++ w ++ v) = .ok P) : Script.read (u ++ w' ++ v) = .ok P := by
  let texts : Respacing :=
    { front := u.toList, old := w.toList ++ v.toList, new := w'.toList ++ v.toList
      old_blank := hw.head_append _
      new_blank := hw'.head_append _
      skip_eq := by
        rw [Reader.skip_blanks_append hw.blank, Reader.skip_blanks_append hw'.blank] }
  rw [Script.read_eq_ok_iff, String.toList_append, String.toList_append, List.append_assoc] at h ⊢
  rcases Reader.script_respaced texts hu h with hread | ⟨hhides, -⟩
  · exact hread
  · -- both versions show the same past their blanks
    have hshown : Reader.assigns (w.toList ++ v.toList) = true := hhides.shown
    have hhidden : Reader.assigns (w'.toList ++ v.toList) = false := hhides.hidden
    rw [Reader.assigns_blanks_append hw.blank] at hshown
    rw [Reader.assigns_blanks_append hw'.blank, hshown] at hhidden
    cases hhidden

theorem Script.read_reblanked_run :
    Script.read "run f\n\u3000(x)" = .ok [.run (.name "f") [.name "x"] none none] := by
  have hspace : Text.IsBlankRun " " := ⟨by decide, List.all_eq_true.1 (by decide)⟩
  have hline : Text.IsBlankRun "\n\u3000" := ⟨by decide, List.all_eq_true.1 (by decide)⟩
  exact Script.read_reblanked "run f" " " "\n\u3000" "(x)" _ hspace hline (by decide) rfl

/-! ## Comments -/

namespace Reader

/-- A comment hides the sign of an assignment behind it. -/
theorem assigns_blanks_comment {blanks : List Char} (h : ∀ c ∈ blanks, isBlank c = true)
    (comment : List Char) : assigns (blanks ++ '/' :: '/' :: comment) = false := by
  rw [assigns_blanks_append h]
  rfl

theorem word?_keyword (keyword : Keyword) {rest : List Char}
    (hblank : rest.head?.any isBlank = true) :
    word? (keyword.text.toList ++ rest) = some (keyword.text, rest) := by
  apply word?_append (isSymbol_text keyword)
  cases rest with
  | nil => rfl
  | cons c rest => exact isWordPart_of_isBlank hblank

theorem keyword?_append (keyword : Keyword) {rest : List Char}
    (hblank : rest.head?.any isBlank = true) (hassigns : assigns rest = false) :
    keyword? (keyword.text.toList ++ rest) = some (keyword, rest) := by
  rw [keyword?, word?_keyword keyword hblank]
  simp [ofText?_text, hassigns]

/-- A keyword that is assigned to, but behind a gap that hides it, starts no statement. -/
theorem statementAt_sign (n : Nat) (keyword : Keyword) {rest : List Char} (h : SignBehindGap rest)
    (hassigns : assigns rest = false) :
    ∃ cause, statementAt (n + 1) (keyword.text.toList ++ rest) = .error ⟨cause, skip rest⟩ := by
  obtain ⟨cause, hfails⟩ :=
    keyworded_sign (rejectsSigns_expressionAt n) (statementAt n) n keyword h
  have hmark : eat? '#' (keyword.text.toList ++ rest) = none := by
    obtain ⟨c, cs, htext, hc, -⟩ := exists_of_isSymbol (isSymbol_text keyword)
    rw [htext]
    apply eat?_ne
    rintro rfl
    cases hc
  refine ⟨cause, ?_⟩
  rw [statementAt, oneStatement, hmark]
  simp only [keyword?_append keyword h.blank hassigns, hfails]

theorem script_sign (keyword : Keyword) {rest : List Char} (h : SignBehindGap rest)
    (hassigns : assigns rest = false) :
    ∃ cause, script (keyword.text.toList ++ rest) = .error ⟨cause, skip rest⟩ := by
  obtain ⟨cause, hfails⟩ :=
    statementAt_sign (keyword.text.toList ++ rest).length keyword h hassigns
  have hskip := skip_symbol (isSymbol_text keyword) rest
  obtain ⟨c, cs, htext, hc, -⟩ := exists_of_isSymbol (isSymbol_text keyword)
  have hbrace : c ≠ '}' := by
    rintro rfl
    cases hc
  refine ⟨cause, ?_⟩
  rw [script, statements, hskip]
  rw [htext, List.cons_append] at hfails ⊢
  simp only [if_neg hbrace, hfails]
  rfl

theorem startsAnew_keyword (keyword : Keyword) {rest : List Char}
    (hblank : rest.head?.any isBlank = true) :
    startsAnew (keyword.text.toList ++ rest) = true := by
  have hfree : keyword.text ∉ ["is", "in", "else"] := by
    cases keyword with
    | perform verb => cases verb <;> decide
    | _ => decide
  rw [startsAnew, skip_symbol (isSymbol_text keyword), word?_keyword keyword hblank,
    Option.any_some, decide_eq_true hfree, Bool.or_true]

end Reader

namespace Script

/-- A source text is not read: the report is about the place where the given rest starts. -/
def FailsAt (source : String) (rest : List Char) : Prop :=
  ∃ cause, Script.read source = .error (Diagnostic.ofFault source.toList ⟨cause, rest⟩)

theorem failsAt_of_script {source : String} (cause : Cause) {rest : List Char}
    (h : Reader.script source.toList = .error ⟨cause, rest⟩) : FailsAt source rest := by
  refine ⟨cause, ?_⟩
  rw [Script.read, h]
  rfl

/-- A text ends in a keyword and blanks, after some other text. -/
def EndsInKeyword (text start : String) (keyword : Keyword) : Prop :=
  ∃ blanks, text = start ++ keyword.text ++ blanks ∧ ∀ c ∈ blanks.toList, isBlank c = true

/-- A statement can start after a text: it is empty, or it is a script and a newline. -/
def EndsStatements (text : String) : Prop :=
  text = "" ∨ ∃ above P, text = above ++ "\n" ∧ Script.read above = .ok P

theorem EndsStatements.script_sign {start : String} (hstart : EndsStatements start)
    (keyword : Keyword) {rest : List Char} (h : Reader.SignBehindGap rest)
    (hassigns : Reader.assigns rest = false) :
    ∃ cause, Reader.script (start.toList ++ (keyword.text.toList ++ rest)) =
      .error ⟨cause, skip rest⟩ := by
  obtain ⟨cause, hfails⟩ := Reader.script_sign keyword h hassigns
  refine ⟨cause, ?_⟩
  rcases hstart with rfl | ⟨above, P, rfl, habove⟩
  · exact hfails
  · have hline : (above ++ "\n").toList ++ (keyword.text.toList ++ rest) =
        above.toList ++ '\n' :: (keyword.text.toList ++ rest) := by
      simp [String.toList_append]
    rw [hline, Reader.script_line_append (Script.read_eq_ok_iff.1 habove)
      (Reader.startsAnew_keyword keyword h.blank), hfails]
    rfl

end Script

section

variable (u : String) {w c : String} (v : String)

/-- A text, and the text with a comment after a run of blanks. -/
def Respacing.comment (hw : Text.IsBlankRun w) (hc : '\n' ∉ c.toList) : Respacing where
  front := u.toList
  old := w.toList ++ v.toList
  new := w.toList ++ '/' :: '/' :: (c.toList ++ '\n' :: v.toList)
  old_blank := hw.head_append _
  new_blank := hw.head_append _
  skip_eq := by rw [hw.skip_comment hc, Reader.skip_blanks_append hw.blank]

theorem Respacing.toList_comment (hw : Text.IsBlankRun w) (hc : '\n' ∉ c.toList) :
    (u ++ w ++ "//" ++ c ++ "\n" ++ v).toList =
      (comment u v hw hc).front ++ (comment u v hw hc).new := by
  simp [comment, String.toList_append]

variable {u v}

/-- A comment that hides the sign of an assignment from the keyword that starts it. -/
theorem Script.failsAt_comment (hw : Text.IsBlankRun w) (hc : '\n' ∉ c.toList) {start : String}
    {keyword : Keyword} (hu : Script.EndsInKeyword u start keyword)
    (hstart : Script.EndsStatements start) (hv : Reader.assigns v.toList = true) :
    Script.FailsAt (u ++ w ++ "//" ++ c ++ "\n" ++ v) (skip v.toList) := by
  obtain ⟨blanks, rfl, hblanks⟩ := hu
  let gap := w.toList ++ '/' :: '/' :: (c.toList ++ '\n' :: v.toList)
  have hskip : skip (blanks.toList ++ gap) = skip v.toList := by
    rw [Reader.skip_blanks_append hblanks, hw.skip_comment hc]
  have hsign : Reader.SignBehindGap (blanks.toList ++ gap) := by
    refine ⟨Reader.head_blanks_append hblanks (hw.head_append _), ?_⟩
    rw [hskip]
    exact Reader.sign_of_assigns hv
  have hhidden : Reader.assigns (blanks.toList ++ gap) = false := by
    rw [Reader.assigns_blanks_append hblanks]
    exact Reader.assigns_blanks_comment hw.blank _
  obtain ⟨cause, hfails⟩ := hstart.script_sign keyword hsign hhidden
  apply Script.failsAt_of_script cause
  rw [← hskip, ← hfails]
  simp [gap, String.toList_append]

end

/-- A comment is as good as a blank, with one exception. Where code stands, a comment can be added
after a run of blanks, and the same script is read, unless the blanks stand between a keyword and a
sign that makes it the target of an assignment. Reading then may fail at the sign, and it does fail
there if the keyword is where a statement can start. -/
theorem Script.read_commented (u w c v : String) (P : Script) (hw : Text.IsBlankRun w)
    (hu : scan .code u.toList = .code) (hc : '\n' ∉ c.toList)
    (h : Script.read (u ++ w ++ v) = .ok P) :
    (Script.read (u ++ w ++ "//" ++ c ++ "\n" ++ v) = .ok P ∨
      (∃ start keyword, Script.EndsInKeyword u start keyword) ∧
        Reader.assigns v.toList = true ∧
        Script.FailsAt (u ++ w ++ "//" ++ c ++ "\n" ++ v) (skip v.toList)) ∧
    ∀ start keyword, Script.EndsInKeyword u start keyword → Script.EndsStatements start →
      Reader.assigns v.toList = true →
      Script.FailsAt (u ++ w ++ "//" ++ c ++ "\n" ++ v) (skip v.toList) := by
  refine ⟨?_, fun start keyword => Script.failsAt_comment hw hc⟩
  have hnew := Respacing.toList_comment u v hw hc
  rw [Script.read_eq_ok_iff, String.toList_append, String.toList_append, List.append_assoc] at h
  rcases Reader.script_respaced (.comment u v hw hc) hu h with hread | ⟨hhides, cause, hread⟩
  · rw [Script.read_eq_ok_iff, hnew]
    exact Or.inl hread
  · obtain ⟨start, keyword, blanks, hfront, hblanks⟩ := hhides.keyword
    have hshown : Reader.assigns (w.toList ++ v.toList) = true := hhides.shown
    rw [Reader.assigns_blanks_append hw.blank] at hshown
    have hends : Script.EndsInKeyword u (String.ofList start) keyword := by
      refine ⟨String.ofList blanks, ?_, ?_⟩
      · rw [← String.toList_inj]
        simp only [String.toList_append, String.toList_ofList]
        exact hfront
      · rw [String.toList_ofList]
        exact hblanks
    refine Or.inr ⟨⟨_, keyword, hends⟩, hshown, ?_⟩
    apply Script.failsAt_of_script cause
    rw [hnew, hread]
    exact congrArg (fun rest => Except.error (Fault.mk cause rest)) (hw.skip_comment hc _)

theorem Script.read_commented_act : Script.FailsAt "hop y\nact // c\n= x" "= x".toList := by
  have hspace : Text.IsBlankRun " " := ⟨by decide, List.all_eq_true.1 (by decide)⟩
  refine (Script.read_commented "hop y\nact" " " " c" "= x"
    [.perform .hop (.name "y"), .set (.list [.name "act"]) (.name "x")] hspace
    ?code ?line ?read).2 "hop y\n" (.perform .act) ?keyword ?start rfl
  case code => decide
  case line => decide
  case read => rfl
  case keyword => exact ⟨"", rfl, by simp⟩
  case start => exact Or.inr ⟨"hop y", [.perform .hop (.name "y")], rfl, rfl⟩

/-- A comment does not always leave the script as it is. -/
theorem Script.read_commented_fails :
    ¬ ∀ (u w c v : String) (P : Script), Text.IsBlankRun w → scan .code u.toList = .code →
      '\n' ∉ c.toList → Script.read (u ++ w ++ v) = .ok P →
      Script.read (u ++ w ++ "//" ++ c ++ "\n" ++ v) = .ok P := by
  intro hall
  have hread := hall "act" " " " c" "= x" [.set (.list [.name "act"]) (.name "x")]
    ⟨by decide, List.all_eq_true.1 (by decide)⟩ (by decide) (by decide) rfl
  cases hread

end Dialogue
