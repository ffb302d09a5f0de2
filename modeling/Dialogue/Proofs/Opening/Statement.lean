import Dialogue.Proofs.Opening.Expression
import Dialogue.Proofs.Progress.Shape

/-!
# Scripts report strings without an end

Each reader of a form of statement is `Reporting`, and so is the reader for scripts. In a diagnostic
with the wording `Unterminated string` (`Script.read_unterminated`), the position is that of the
quote that opens the first string without an end, unless the text ends right after a backslash in
that string: then it is the end of the text.
-/

namespace Dialogue

open Text (skip scan byteLength stringEnd Opens Passes reportedAt)

namespace Reader

section

variable {expr : Reader Expr} {statement : Reader Statement}

/-! ## Blocks and branches -/

theorem reporting_statements (hstatement : Reporting statement) (n : Nat) :
    Reporting (statements statement n) := by
  induction n with
  | zero => exact reporting_exhausted
  | succ n ih =>
    intro text
    have hskip := Passes.skip text
    rw [statements]
    split
    · rename_i hnil
      rw [hnil] at hskip
      exact Reports.ok hskip
    · rename_i c rest hcons
      rw [hcons] at hskip
      split
      · exact Reports.ok hskip
      · refine Reports.bind hskip (hstatement (c :: rest)) fun first rest hrest => ?_
        exact Reports.bind hrest (ih rest) fun others rest hrest => Reports.ok hrest

theorem reporting_block (hstatement : Reporting statement) (n : Nat) :
    Reporting (block statement n) := by
  intro text
  rw [block]
  refine Reports.expect (Passes.refl text) (by decide) fun rest hrest => ?_
  refine Reports.bind hrest (reporting_statements hstatement n rest) fun body rest hrest => ?_
  refine Reports.expect (hrest.trans (Passes.skip rest)) (by decide) fun rest hrest => ?_
  exact Reports.ok hrest

theorem reporting_condition (hexpr : Reporting expr) : Reporting (condition expr) := by
  intro text
  rw [condition]
  split
  · rename_i rest heat
    rw [eatDefault?_eq] at heat
    split
    · exact Reports.ok ((passes_of_eatUnless heat (by decide)).trans (Passes.skip rest))
    · exact Reports.fault (by simp)
  split
  · exact Reports.fault (by simp)
  · exact Reports.bind (Passes.refl text) (hexpr text) fun found rest hrest =>
      Reports.ok (hrest.trans (Passes.skip rest))

theorem reporting_branch (hexpr : Reporting expr) (hstatement : Reporting statement) (n : Nat) :
    Reporting (branch expr statement n) := by
  intro text
  rw [branch]
  refine Reports.bind (Passes.refl text) (reporting_condition hexpr text) ?_
  intro found rest hrest
  exact Reports.bind hrest (reporting_block hstatement n rest) fun body rest hrest =>
    Reports.ok hrest

theorem reporting_branchList (hexpr : Reporting expr) (hstatement : Reporting statement)
    (n k : Nat) : Reporting (branchList expr statement n k) := by
  induction k with
  | zero => exact reporting_exhausted
  | succ k ih =>
    intro text
    have hskip := Passes.skip text
    rw [branchList]
    split
    · rename_i hnil
      rw [hnil] at hskip
      exact Reports.ok hskip
    · rename_i c rest hcons
      rw [hcons] at hskip
      split
      · exact Reports.ok hskip
      · refine Reports.bind hskip (reporting_branch hexpr hstatement n (c :: rest)) ?_
        intro first rest hrest
        exact Reports.bind hrest (ih rest) fun others rest hrest => Reports.ok hrest

theorem reporting_branches (hexpr : Reporting expr) (hstatement : Reporting statement) (n : Nat) :
    Reporting (branches expr statement n) := by
  intro text
  rw [branches]
  refine Reports.expect (Passes.refl text) (by decide) fun rest hrest => ?_
  refine Reports.bind hrest (reporting_branchList hexpr hstatement n n rest) ?_
  intro found rest hrest
  exact Reports.expect hrest (by decide) fun rest hrest => Reports.ok hrest

/-! ## Forms with blocks -/

theorem reporting_conditional (hexpr : Reporting expr) (hstatement : Reporting statement)
    (n k : Nat) : Reporting (conditional expr statement n k) := by
  induction k with
  | zero => exact reporting_exhausted
  | succ k ih =>
    intro text
    rw [conditional]
    refine Reports.expectBlank (Passes.refl text) fun rest hrest => ?_
    refine Reports.bind hrest (hexpr rest) fun found rest hrest => ?_
    refine Reports.bind (hrest.trans (Passes.skip rest)) (reporting_block hstatement n _) ?_
    intro body rest hrest
    dsimp only
    split
    · exact Reports.ok hrest
    · rename_i rest' heat
      have helse := (hrest.trans (Passes.skip rest)).trans (passes_of_eatWord? heat)
      have hafter := helse.trans (Passes.skip rest')
      split
      · exact Reports.bind hafter (reporting_block hstatement n _) fun last rest hrest =>
          Reports.ok hrest
      split
      · rename_i rest'' heat'
        have hnext := hafter.trans (passes_of_eatWord? heat')
        exact Reports.bind hnext (ih rest'') fun others rest hrest => Reports.ok hrest
      · exact Reports.fault (by simp)

theorem reporting_schemed (hexpr : Reporting expr) (hstatement : Reporting statement) (n : Nat)
    (scheme : List (String × Expr)) : Reporting (schemed expr statement n scheme) := by
  intro text
  rw [schemed]
  split
  · rename_i rest heat
    have hrest := passes_of_eatWord? heat
    exact Reports.bind hrest (reporting_conditional hexpr hstatement n n rest)
      fun found rest hrest => Reports.ok hrest
  split
  · rename_i rest heat
    have hrest := (passes_of_eatWord? heat).trans (Passes.skip rest)
    exact Reports.bind hrest (reporting_branches hexpr hstatement n _) fun found rest hrest =>
      Reports.ok hrest
  · exact Reports.fault (by simp)

theorem reporting_input (hexpr : Reporting expr) (hstatement : Reporting statement) (n : Nat) :
    Reporting (input expr statement n) := by
  intro text
  have hskip := Passes.skip text
  rw [input]
  dsimp only
  split
  · exact Reports.fault (by simp)
  · rename_i rest heat
    have hrest := hskip.trans (passes_of_eatText? heat (by decide))
    refine Reports.bind (hrest.trans (Passes.skip rest)) (reporting_identifier _) ?_
    intro result rest hrest
    exact Reports.bind (hrest.trans (Passes.skip rest)) (reporting_branches hexpr hstatement n _)
      fun found rest hrest => Reports.ok hrest

/-! ## Other programs and modules -/

theorem reporting_runArguments (hexpr : Reporting expr) (n : Nat) (name : Expr) :
    Reporting (runArguments expr n name) := by
  intro text
  rw [runArguments]
  split
  · rename_i rest heat
    have hrest := (Passes.skip text).trans (passes_of_eat? heat (by decide))
    exact Reports.bind hrest (reporting_enclosed (by decide) hexpr n rest) fun args rest hrest =>
      Reports.ok hrest
  · exact Reports.ok (Passes.refl text)

theorem reporting_run (hexpr : Reporting expr) (hstatement : Reporting statement) (n : Nat) :
    Reporting (run expr statement n) := by
  intro text
  rw [run]
  refine Reports.bind (Passes.skip text) (hexpr (skip text)) fun name rest hrest => ?_
  refine Reports.bind hrest (reporting_runArguments hexpr n name rest) ?_
  intro call rest hrest
  have hgap := hrest.trans (Passes.skip rest)
  dsimp only
  split
  · exact Reports.ok hrest
  · rename_i after heat
    have hafter := hgap.trans (passes_of_eatText? heat (by decide))
    refine Reports.bind (hafter.trans (Passes.skip after)) (reporting_identifier _) ?_
    intro result rest hrest
    dsimp only
    split
    · exact Reports.bind (hrest.trans (Passes.skip rest))
        (reporting_branches hexpr hstatement n _) fun found rest hrest => Reports.ok hrest
    · exact Reports.ok hrest

theorem reporting_imports (n : Nat) : Reporting (imports n) := by
  induction n with
  | zero => exact reporting_exhausted
  | succ n ih =>
    intro text
    rw [imports]
    refine Reports.bind (Passes.skip text) (reporting_identifier _) fun first rest hrest => ?_
    dsimp only
    split
    · rename_i after heat
      have hafter := (hrest.trans (Passes.skip rest)).trans (passes_of_eat? heat (by decide))
      exact Reports.bind hafter (ih after) fun others rest hrest => Reports.ok hrest
    · exact Reports.ok hrest

theorem reporting_use (n : Nat) : Reporting (use n) := by
  intro text
  rw [use]
  refine Reports.expectBlank (Passes.refl text) fun rest hrest => ?_
  split
  · refine Reports.bind hrest (reporting_string rest) fun source rest hrest => ?_
    refine Reports.expectBlank hrest fun rest hrest => ?_
    refine Reports.expectWord hrest fun rest hrest => ?_
    exact Reports.bind hrest (reporting_imports n rest) fun names rest hrest => Reports.ok hrest
  · exact Reports.fault (by simp)

theorem reporting_define (hstatement : Reporting statement) (n : Nat) :
    Reporting (define statement n) := by
  intro text
  rw [define]
  refine Reports.expectBlank (Passes.refl text) fun rest hrest => ?_
  refine Reports.bind hrest (reporting_identifier rest) fun name rest hrest => ?_
  refine Reports.expect (hrest.trans (Passes.skip rest)) (by decide) fun rest hrest => ?_
  refine Reports.bind hrest (reporting_enclosed (by decide) reporting_identifier n rest) ?_
  intro params rest hrest
  exact Reports.bind (hrest.trans (Passes.skip rest)) (reporting_block hstatement n _)
    fun body rest hrest => Reports.ok hrest

/-! ## Assignments -/

theorem reporting_targets (hexpr : Reporting expr) (n : Nat) : Reporting (targets expr n) := by
  induction n with
  | zero => exact reporting_exhausted
  | succ n ih =>
    intro text
    rw [targets]
    refine Reports.bind (Passes.skip text) (hexpr (skip text)) fun first rest hrest => ?_
    have hgap := hrest.trans (Passes.skip rest)
    dsimp only
    split
    · rename_i after heat
      have hafter := hgap.trans (passes_of_eat? heat (by decide))
      exact Reports.bind hafter (ih after) fun others rest hrest => Reports.ok hrest
    · exact Reports.ok hgap

theorem reporting_assignment (hexpr : Reporting expr) (n : Nat) :
    Reporting (assignment expr n) := by
  intro text
  rw [assignment]
  refine Reports.bind (Passes.refl text) (reporting_targets hexpr n text) ?_
  intro elements rest hrest
  dsimp only
  split
  · exact Reports.fault (by simp)
  · rename_i after heat
    rw [eatAssign?_eq] at heat
    have hafter := hrest.trans (passes_of_eatUnless heat (by decide))
    exact Reports.bind (hafter.trans (Passes.skip after)) (hexpr (skip after))
      fun value rest hrest => Reports.ok hrest

/-! ## All forms -/

theorem reporting_keyworded (hexpr : Reporting expr) (hstatement : Reporting statement) (n : Nat)
    (keyword : Keyword) : Reporting (keyworded expr statement n keyword) := by
  intro text
  cases keyword with
  | condition =>
    rw [keyworded]
    exact Reports.bind (Passes.refl text) (reporting_conditional hexpr hstatement n n text)
      fun found rest hrest => Reports.ok hrest
  | fork =>
    rw [keyworded]
    exact Reports.bind (Passes.skip text) (reporting_branches hexpr hstatement n _)
      fun found rest hrest => Reports.ok hrest
  | input => exact reporting_input hexpr hstatement n text
  | await =>
    rw [keyworded]
    refine Reports.expectBlank (Passes.refl text) fun rest hrest => ?_
    refine Reports.bind hrest (hexpr rest) fun found rest hrest => ?_
    exact Reports.bind (hrest.trans (Passes.skip rest)) (reporting_block hstatement n _)
      fun body rest hrest => Reports.ok hrest
  | once =>
    rw [keyworded]
    exact Reports.bind (Passes.skip text) (reporting_block hstatement n _)
      fun body rest hrest => Reports.ok hrest
  | perform verb =>
    rw [keyworded]
    refine Reports.expectBlank (Passes.refl text) fun rest hrest => ?_
    exact Reports.bind hrest (hexpr rest) fun value rest hrest => Reports.ok hrest
  | run => exact reporting_run hexpr hstatement n text
  | use => exact reporting_use n text
  | define => exact reporting_define hstatement n text

theorem reporting_oneStatement (hexpr : Reporting expr) (hstatement : Reporting statement)
    (n : Nat) : Reporting (oneStatement expr statement n) := by
  intro text
  rw [oneStatement]
  split
  · rename_i rest heat
    have hrest := passes_of_eat? heat (by decide)
    refine Reports.bind hrest (reporting_object hexpr n rest) fun scheme rest hrest => ?_
    exact (reporting_schemed hexpr hstatement n scheme (skip rest)).within
      (hrest.trans (Passes.skip rest))
  split
  · rename_i keyword rest hkeyword
    have hword := word?_of_keyword? hkeyword
    exact (reporting_keyworded hexpr hstatement n keyword rest).within (passes_of_word? hword)
  · exact reporting_assignment hexpr n text

end

theorem reporting_statementAt (n : Nat) : Reporting (statementAt n) := by
  induction n with
  | zero => exact reporting_exhausted
  | succ n ih => exact reporting_oneStatement (reporting_expressionAt (n + 1)) ih (n + 1)

/-! ## Scripts -/

/-- A script that cannot be read for a string without an end: the fault is where the first one is
reported. -/
theorem script_unterminated {text : List Char} {fault : Fault} (h : script text = .error fault)
    (hcause : fault.cause = .unterminatedString) :
    ∃ body, Opens text ('"' :: body) ∧ fault.rest = reportedAt body := by
  have hreports := reporting_statements (reporting_statementAt (text.length + 1))
    (text.length + 1) text
  rw [script] at h
  cases hread : statements (statementAt (text.length + 1)) (text.length + 1) text with
  | error found =>
    rw [hread] at h hreports
    cases h
    exact hreports hcause
  | ok found =>
    rw [hread] at h
    -- what is left after the statements is at fault, which is no matter of a string
    dsimp only [bind, Except.bind] at h
    split at h
    · cases h
    · cases h
      cases hcause

end Reader

/-- Only strings without an end are reported with their wording. -/
theorem Cause.eq_of_message {cause : Cause} (h : cause.message = "Unterminated string") :
    cause = .unterminatedString := by
  have htwo : ∀ first rest : String, ¬ first.toList <+: "Unterminated string".toList →
      first ++ rest ≠ "Unterminated string" := by
    intro first rest hfirst heq
    apply hfirst
    rw [← heq, String.toList_append]
    exact List.prefix_append _ _
  have hthree : ∀ first middle last : String, ¬ first.toList <+: "Unterminated string".toList →
      first ++ middle ++ last ≠ "Unterminated string" := by
    intro first middle last hfirst
    rw [String.append_assoc]
    exact htwo first (middle ++ last) hfirst
  cases cause with
  | unterminatedString => rfl
  | unexpected c => exact absurd h (hthree "Unexpected '" c.toString "'" (by decide))
  | expected text => exact absurd h (hthree "Expected '" text "'" (by decide))
  | expectedWord word => exact absurd h (hthree "Expected `" word "`" (by decide))
  | expectedBlank after =>
    exact absurd h (hthree "Expected whitespace after `" after "`" (by decide))
  | invalidNumber text => exact absurd h (htwo "Invalid number: " text (by decide))
  | _ => exact absurd h (by decide)

/-- A character of a text lies before the end. -/
theorem Text.byteLength_lt_append_cons (before : List Char) (c : Char) (rest : List Char) :
    byteLength before < byteLength (before ++ c :: rest) := by
  have hpos := c.utf8Size_pos
  rw [Text.byteLength_append, byteLength]
  omega

/-- A string is reported as unterminated only if there is one without an end. The report is about
the quote that opens the first of them, except in a text that ends right after a backslash in that
string, where it is about the end of the text. -/
theorem Script.read_unterminated (source : String) (d : Diagnostic)
    (hread : Script.read source = .error d) (hmessage : d.message = "Unterminated string") :
    ∃ before body, source.toList = before ++ '"' :: body ∧ scan .code before = .code ∧
      (∀ rest, stringEnd body ≠ .closed rest) ∧
      (∀ opening, Opens source.toList opening ↔ opening = '"' :: body) ∧
      (d.position.offset = byteLength before ↔ stringEnd body = .missing) ∧
      (stringEnd body = .missing →
        d = .between .mismatch "Unterminated string" before ('"' :: body)) ∧
      (stringEnd body = .escaping → (∃ content, body = content ++ ['\\']) ∧
        d = .between .mismatch "Unterminated string" source.toList []) := by
  obtain ⟨⟨cause, rest⟩, place, hscript, hsource, rfl⟩ := Script.exists_fault_of_read hread
  obtain rfl := Cause.eq_of_message hmessage
  obtain ⟨body, hopens, rfl⟩ := Reader.script_unterminated hscript rfl
  obtain ⟨before, body', hbody, htext, hscan, hopen⟩ := hopens.exists_before
  obtain rfl : body = body' := (List.cons.inj hbody).2
  refine ⟨before, body, htext, hscan, hopen, fun opening => ⟨hopens.unique, ?_⟩, ?_⟩
  · rintro rfl
    exact hopens
  cases hend : stringEnd body with
  | closed rest => exact absurd hend (hopen rest)
  | missing =>
    rw [Text.reportedAt_of_missing hend, htext] at hsource
    rw [Text.reportedAt_of_missing hend, ← List.append_cancel_right hsource]
    exact ⟨iff_of_true rfl rfl, fun _ => rfl, fun h => nomatch h⟩
  | escaping =>
    rw [Text.reportedAt_of_escaping hend, List.append_nil] at hsource
    rw [Text.reportedAt_of_escaping hend, ← hsource]
    refine ⟨iff_of_false ?_ nofun, nofun, fun _ => ⟨Text.eq_append_of_escaping hend, rfl⟩⟩
    rw [htext]
    exact Nat.ne_of_gt (Text.byteLength_lt_append_cons before '"' body)

/-- Neither the quote after the backslash nor the one in the comment opens a string, and the newline
after the backslash does not end one. -/
theorem Script.read_unterminated_later :
    ∃ before body, "hop \"\\\"\" // \"\nact \"b\\\n\n".toList = before ++ '"' :: body ∧
      scan .code before = .code ∧ stringEnd body = .missing ∧ byteLength before = 18 := by
  have hread : Script.read "hop \"\\\"\" // \"\nact \"b\\\n\n" =
      .error ⟨.mismatch, "Unterminated string", ⟨2, 4, 18⟩, "act \"b\\"⟩ := by decide +kernel
  obtain ⟨before, body, htext, hscan, hopen, -, hoffset, -, hescaping⟩ :=
    Script.read_unterminated _ _ hread rfl
  have hmissing : stringEnd body = .missing := by
    cases hend : stringEnd body with
    | closed rest => exact absurd hend (hopen rest)
    | missing => rfl
    | escaping =>
      have hplace := congrArg (fun d => d.position.offset) (hescaping hend).2
      exact absurd hplace (by decide)
  exact ⟨before, body, htext, hscan, hmissing, (hoffset.2 hmissing).symm⟩

/-- A string without an end is not always reported at a quote. -/
theorem Script.read_unterminated_fails :
    ¬ ∀ (source : String) (d : Diagnostic), Script.read source = .error d →
      d.message = "Unterminated string" →
      ∃ before body, source.toList = before ++ '"' :: body ∧
        d.position.offset = byteLength before := by
  intro hall
  have hread : Script.read "act \"abc\\" =
      .error ⟨.mismatch, "Unterminated string", ⟨1, 9, 9⟩, "act \"abc\\"⟩ := by decide +kernel
  obtain ⟨before, body, htext, hoffset⟩ := hall _ _ hread rfl
  have hlength : byteLength "act \"abc\\".toList = 9 := by decide
  -- the quote would lie at the end of the text
  have hbefore := Text.byteLength_lt_append_cons before '"' body
  rw [← htext, ← hoffset, hlength] at hbefore
  exact absurd hbefore (by decide)

end Dialogue
