import Dialogue.Proofs.Nesting.Expression
import Dialogue.Proofs.Progress.Shape
import Dialogue.Proofs.Seam.Script

/-!
# Scripts close their brackets

As for expressions, each reader of a form of statement is `Nesting` if the readers for what stands
inside are. A list of statements or branches stops at a closing brace without reading it, so it is
the block around the list that closes what it has opened. A script is the whole text, so nothing is
awaited at its end, and every text that is read as one has balanced brackets
(`Script.balanced_of_read`).
-/

namespace Dialogue

open Text (skip Closed isInert)

namespace Reader

/-! ## Blocks and branches -/

section

variable {expr : Reader Expr} {statement : Reader Statement}

theorem nesting_statements (hstatement : Nesting statement) (n : Nat) :
    Nesting (statements statement n) := by
  induction n with
  | zero => exact nesting_fault _
  | succ n ih =>
    intro text found rest hread awaited h
    apply Closed.of_skip
    rw [statements] at hread
    split at hread
    · rename_i hnil
      cases hread
      rw [hnil]
      exact h
    · rename_i c more hskip
      rw [hskip]
      split at hread
      · -- the brace that stops the list is left to the block around it
        cases hread
        exact h
      · simp only [bind_eq_ok_iff, Prod.exists, Except.ok.injEq, Prod.mk.injEq] at hread
        obtain ⟨first, after, hfirst, others, last, hothers, -, rfl⟩ := hread
        exact hstatement hfirst (ih hothers h)

theorem nesting_block (hstatement : Nesting statement) (n : Nat) :
    Nesting (block statement n) := by
  intro text found rest hread awaited h
  simp only [block, bind_eq_ok_iff, Prod.exists, Except.ok.injEq, Prod.mk.injEq] at hread
  obtain ⟨inside, hopen, body, after, hbody, last, hclose, -, rfl⟩ := hread
  rw [expect_eq_ok hopen]
  apply Closed.opening Text.braces_mem
  apply nesting_statements hstatement n hbody
  apply Closed.of_skip
  rw [expect_eq_ok hclose]
  exact h.closing Text.braces_mem

theorem nesting_condition (hexpr : Nesting expr) : Nesting (condition expr) := by
  intro text found rest hread awaited h
  rw [condition] at hread
  split at hread
  · rename_i more heat
    rw [eatDefault?_eq] at heat
    split at hread
    · cases hread
      exact closed_of_eatUnless heat (by decide) h.of_skip
    · cases hread
  split at hread
  · cases hread
  · simp only [bind_eq_ok_iff, Prod.exists, Except.ok.injEq, Prod.mk.injEq] at hread
    obtain ⟨e, after, he, -, rfl⟩ := hread
    exact hexpr he h.of_skip

theorem nesting_branch (hexpr : Nesting expr) (hstatement : Nesting statement) (n : Nat) :
    Nesting (branch expr statement n) := by
  intro text found rest hread awaited h
  simp only [branch, bind_eq_ok_iff, Prod.exists, Except.ok.injEq, Prod.mk.injEq] at hread
  obtain ⟨e, after, he, body, last, hbody, -, rfl⟩ := hread
  exact nesting_condition hexpr he (nesting_block hstatement n hbody h)

theorem nesting_branchList (hexpr : Nesting expr) (hstatement : Nesting statement) (n k : Nat) :
    Nesting (branchList expr statement n k) := by
  induction k with
  | zero => exact nesting_fault _
  | succ k ih =>
    intro text found rest hread awaited h
    apply Closed.of_skip
    rw [branchList] at hread
    split at hread
    · rename_i hnil
      cases hread
      rw [hnil]
      exact h
    · rename_i c more hskip
      rw [hskip]
      split at hread
      · cases hread
        exact h
      · simp only [bind_eq_ok_iff, Prod.exists, Except.ok.injEq, Prod.mk.injEq] at hread
        obtain ⟨first, after, hfirst, others, last, hothers, -, rfl⟩ := hread
        exact nesting_branch hexpr hstatement n hfirst (ih hothers h)

theorem nesting_branches (hexpr : Nesting expr) (hstatement : Nesting statement) (n : Nat) :
    Nesting (branches expr statement n) := by
  intro text found rest hread awaited h
  simp only [branches, bind_eq_ok_iff, Prod.exists, Except.ok.injEq, Prod.mk.injEq] at hread
  obtain ⟨inside, hopen, list, after, hlist, last, hclose, -, rfl⟩ := hread
  rw [expect_eq_ok hopen]
  apply Closed.opening Text.braces_mem
  apply nesting_branchList hexpr hstatement n n hlist
  rw [expect_eq_ok hclose]
  exact h.closing Text.braces_mem

/-! ## Forms of statements -/

theorem nesting_conditional (hexpr : Nesting expr) (hstatement : Nesting statement) (n k : Nat) :
    Nesting (conditional expr statement n k) := by
  induction k with
  | zero => exact nesting_fault _
  | succ k ih =>
    intro text found rest hread awaited h
    simp only [conditional, bind_eq_ok_iff, Prod.exists] at hread
    obtain ⟨inside, hblank, e, afterCondition, he, body, after, hbody, hread⟩ := hread
    apply closed_of_expectBlank hblank
    apply hexpr he
    apply Closed.of_skip
    apply nesting_block hstatement n hbody
    split at hread
    · cases hread
      exact h
    · rename_i more helse
      apply Closed.of_skip
      apply closed_of_eatWord? helse
      apply Closed.of_skip
      split at hread
      · simp only [bind_eq_ok_iff, Prod.exists, Except.ok.injEq, Prod.mk.injEq] at hread
        obtain ⟨last, final, hlast, -, rfl⟩ := hread
        exact nesting_block hstatement n hlast h
      split at hread
      · rename_i again hif
        simp only [bind_eq_ok_iff, Prod.exists, Except.ok.injEq, Prod.mk.injEq] at hread
        obtain ⟨others, final, hothers, -, rfl⟩ := hread
        exact closed_of_eatWord? hif (ih hothers h)
      · cases hread

theorem nesting_schemed (hexpr : Nesting expr) (hstatement : Nesting statement) (n : Nat)
    (scheme : List (String × Expr)) : Nesting (schemed expr statement n scheme) := by
  intro text found rest hread awaited h
  rw [schemed] at hread
  split at hread
  · rename_i more hif
    simp only [bind_eq_ok_iff, Prod.exists, Except.ok.injEq, Prod.mk.injEq] at hread
    obtain ⟨list, last, hlist, -, rfl⟩ := hread
    exact closed_of_eatWord? hif (nesting_conditional hexpr hstatement n n hlist h)
  split at hread
  · rename_i more hfork
    simp only [bind_eq_ok_iff, Prod.exists, Except.ok.injEq, Prod.mk.injEq] at hread
    obtain ⟨list, last, hlist, -, rfl⟩ := hread
    exact closed_of_eatWord? hfork (nesting_branches hexpr hstatement n hlist h).of_skip
  · cases hread

/-- The arrow in front of a result has no bracket in it. -/
theorem closed_of_eatArrow? {text rest awaited : List Char}
    (heat : eatText? ['-', '>'] text = some rest) (h : Closed .code awaited rest) :
    Closed .code awaited text := closed_of_eatText? heat (by decide) h

theorem nesting_input (hexpr : Nesting expr) (hstatement : Nesting statement) (n : Nat) :
    Nesting (input expr statement n) := by
  intro text found rest hread awaited h
  rw [input] at hread
  dsimp only at hread
  split at hread
  · cases hread
  · rename_i more harrow
    simp only [bind_eq_ok_iff, Prod.exists, Except.ok.injEq, Prod.mk.injEq] at hread
    obtain ⟨result, after, hresult, list, last, hlist, -, rfl⟩ := hread
    apply Closed.of_skip
    apply closed_of_eatArrow? harrow
    apply Closed.of_skip
    apply nesting_identifier hresult
    apply Closed.of_skip
    exact nesting_branches hexpr hstatement n hlist h

theorem nesting_runArguments (hexpr : Nesting expr) (n : Nat) (name : Expr) :
    Nesting (runArguments expr n name) := by
  intro text found rest hread awaited h
  rw [runArguments] at hread
  split at hread
  · rename_i more heat
    simp only [bind_eq_ok_iff, Prod.exists, Except.ok.injEq, Prod.mk.injEq] at hread
    obtain ⟨args, last, hargs, -, rfl⟩ := hread
    apply Closed.of_skip
    rw [eat?_eq_some heat]
    apply Closed.opening Text.parentheses_mem
    exact closing_enclosed Text.parentheses_mem hexpr n hargs h
  · cases hread
    exact h

theorem nesting_run (hexpr : Nesting expr) (hstatement : Nesting statement) (n : Nat) :
    Nesting (run expr statement n) := by
  intro text found rest hread awaited h
  simp only [run, bind_eq_ok_iff, Prod.exists] at hread
  obtain ⟨written, afterName, hname, name, args, afterArgs, hargs, hread⟩ := hread
  apply Closed.of_skip
  apply hexpr hname
  apply nesting_runArguments hexpr n written hargs
  split at hread
  · cases hread
    exact h
  · rename_i more harrow
    simp only [bind_eq_ok_iff, Prod.exists] at hread
    obtain ⟨result, after, hresult, hread⟩ := hread
    apply Closed.of_skip
    apply closed_of_eatArrow? harrow
    apply Closed.of_skip
    apply nesting_identifier hresult
    split at hread
    · simp only [bind_eq_ok_iff, Prod.exists, Except.ok.injEq, Prod.mk.injEq] at hread
      obtain ⟨list, last, hlist, -, rfl⟩ := hread
      apply Closed.of_skip
      exact nesting_branches hexpr hstatement n hlist h
    · cases hread
      exact h

theorem nesting_imports (n : Nat) : Nesting (imports n) := by
  induction n with
  | zero => exact nesting_fault _
  | succ n ih =>
    intro text found rest hread awaited h
    simp only [imports, bind_eq_ok_iff, Prod.exists] at hread
    obtain ⟨first, after, hfirst, hread⟩ := hread
    apply Closed.of_skip
    apply nesting_identifier hfirst
    split at hread
    · rename_i more heat
      simp only [bind_eq_ok_iff, Prod.exists, Except.ok.injEq, Prod.mk.injEq] at hread
      obtain ⟨others, last, hothers, -, rfl⟩ := hread
      apply Closed.of_skip
      exact closed_of_eat? heat (by decide) (ih hothers h)
    · cases hread
      exact h

theorem nesting_use (n : Nat) : Nesting (use n) := by
  intro text found rest hread awaited h
  simp only [use, bind_eq_ok_iff] at hread
  obtain ⟨inside, hblank, hread⟩ := hread
  apply closed_of_expectBlank hblank
  split at hread
  · simp only [bind_eq_ok_iff, Prod.exists, Except.ok.injEq, Prod.mk.injEq] at hread
    obtain ⟨source, afterSource, hsource, afterGap, hgap, afterWord, hword, names, last, hnames, -,
      rfl⟩ := hread
    apply nesting_string hsource
    apply closed_of_expectBlank hgap
    apply closed_of_expectWord hword
    exact nesting_imports n hnames h
  · cases hread

theorem nesting_define (hstatement : Nesting statement) (n : Nat) :
    Nesting (define statement n) := by
  intro text found rest hread awaited h
  simp only [define, bind_eq_ok_iff, Prod.exists, Except.ok.injEq, Prod.mk.injEq] at hread
  obtain ⟨inside, hblank, name, afterName, hname, afterOpen, hopen, params, after, hparams, body,
    last, hbody, -, rfl⟩ := hread
  apply closed_of_expectBlank hblank
  apply nesting_identifier hname
  apply Closed.of_skip
  rw [expect_eq_ok hopen]
  apply Closed.opening Text.parentheses_mem
  apply closing_enclosed Text.parentheses_mem nesting_identifier n hparams
  apply Closed.of_skip
  exact nesting_block hstatement n hbody h

theorem nesting_targets (hexpr : Nesting expr) (n : Nat) : Nesting (targets expr n) := by
  induction n with
  | zero => exact nesting_fault _
  | succ n ih =>
    intro text found rest hread awaited h
    simp only [targets, bind_eq_ok_iff, Prod.exists] at hread
    obtain ⟨first, after, hfirst, hread⟩ := hread
    apply Closed.of_skip
    apply hexpr hfirst
    apply Closed.of_skip
    split at hread
    · rename_i more heat
      simp only [bind_eq_ok_iff, Prod.exists, Except.ok.injEq, Prod.mk.injEq] at hread
      obtain ⟨others, last, hothers, -, rfl⟩ := hread
      exact closed_of_eat? heat (by decide) (ih hothers h)
    · cases hread
      exact h

theorem nesting_assignment (hexpr : Nesting expr) (n : Nat) : Nesting (assignment expr n) := by
  intro text found rest hread awaited h
  simp only [assignment, bind_eq_ok_iff, Prod.exists] at hread
  obtain ⟨elements, after, helements, hread⟩ := hread
  apply nesting_targets hexpr n helements
  split at hread
  · cases hread
  · rename_i more hassign
    simp only [bind_eq_ok_iff, Prod.exists, Except.ok.injEq, Prod.mk.injEq] at hread
    obtain ⟨value, last, hvalue, -, rfl⟩ := hread
    rw [eatAssign?_eq] at hassign
    exact closed_of_eatUnless hassign (by decide) (hexpr hvalue h).of_skip

theorem nesting_keyworded (hexpr : Nesting expr) (hstatement : Nesting statement) (n : Nat)
    (keyword : Keyword) : Nesting (keyworded expr statement n keyword) := by
  intro text found rest hread awaited h
  cases keyword with
  | condition =>
    simp only [keyworded, bind_eq_ok_iff, Prod.exists, Except.ok.injEq, Prod.mk.injEq] at hread
    obtain ⟨list, last, hlist, -, rfl⟩ := hread
    exact nesting_conditional hexpr hstatement n n hlist h
  | fork =>
    simp only [keyworded, bind_eq_ok_iff, Prod.exists, Except.ok.injEq, Prod.mk.injEq] at hread
    obtain ⟨list, last, hlist, -, rfl⟩ := hread
    exact (nesting_branches hexpr hstatement n hlist h).of_skip
  | input => exact nesting_input hexpr hstatement n hread h
  | await =>
    simp only [keyworded, bind_eq_ok_iff, Prod.exists, Except.ok.injEq, Prod.mk.injEq] at hread
    obtain ⟨inside, hblank, e, after, he, body, last, hbody, -, rfl⟩ := hread
    apply closed_of_expectBlank hblank
    apply hexpr he
    apply Closed.of_skip
    exact nesting_block hstatement n hbody h
  | once =>
    simp only [keyworded, bind_eq_ok_iff, Prod.exists, Except.ok.injEq, Prod.mk.injEq] at hread
    obtain ⟨body, last, hbody, -, rfl⟩ := hread
    exact (nesting_block hstatement n hbody h).of_skip
  | perform verb =>
    simp only [keyworded, bind_eq_ok_iff, Prod.exists, Except.ok.injEq, Prod.mk.injEq] at hread
    obtain ⟨inside, hblank, value, last, hvalue, -, rfl⟩ := hread
    exact closed_of_expectBlank hblank (hexpr hvalue h)
  | run => exact nesting_run hexpr hstatement n hread h
  | use => exact nesting_use n hread h
  | define => exact nesting_define hstatement n hread h

theorem nesting_oneStatement (hexpr : Nesting expr) (hstatement : Nesting statement) (n : Nat) :
    Nesting (oneStatement expr statement n) := by
  intro text found rest hread awaited h
  rw [oneStatement] at hread
  split at hread
  · rename_i more heat
    simp only [bind_eq_ok_iff, Prod.exists] at hread
    obtain ⟨scheme, after, hscheme, hread⟩ := hread
    apply closed_of_eat? heat (by decide)
    apply nesting_object hexpr n hscheme
    apply Closed.of_skip
    exact nesting_schemed hexpr hstatement n scheme hread h
  split at hread
  · rename_i keyword more hkeyword
    have hword := word?_of_keyword? hkeyword
    exact closed_of_word? hword (nesting_keyworded hexpr hstatement n keyword hread h)
  · exact nesting_assignment hexpr n hread h

end

/-! ## The whole text -/

/-- Reading a statement closes all brackets that it opens, under any bound. -/
theorem nesting_statementAt (n : Nat) : Nesting (statementAt n) := by
  induction n with
  | zero => exact nesting_fault _
  | succ n ih =>
    intro text found rest hread
    exact nesting_oneStatement (nesting_expressionAt (n + 1)) ih (n + 1) hread

theorem closed_of_script {text : List Char} {P : Script} (hread : script text = .ok P) :
    Closed .code [] text := by
  obtain ⟨rest, hstatements, hrest⟩ := script_eq_ok_iff.1 hread
  -- what the statements leave is a gap, so a brace that stops them early is not left over
  apply nesting_statements (nesting_statementAt _) _ hstatements
  apply Closed.of_skip
  rw [hrest]
  exact Closed.nil

end Reader

/-- In every text that is read as a script, the brackets outside strings and comments are properly
nested, and the text does not end inside a string. -/
theorem Script.balanced_of_read (source : String) (script : Script)
    (h : Script.read source = .ok script) :
    Text.Balanced (Text.brackets .code source.toList) ∧
      Text.scan .code source.toList ≠ .string := by
  have hclosed := Reader.closed_of_script (Script.read_eq_ok_iff.1 h)
  exact ⟨hclosed.closes.balanced, hclosed.ends⟩

/-- Neither the bracket in the string nor the one in the comment is counted. -/
theorem Script.balanced_of_read_call :
    Text.brackets .code "act f(\"(\", [a]) // \x7d".toList = ['(', '[', ']', ')'] ∧
      Text.Balanced ['(', '[', ']', ')'] := by
  have hok : (Script.read "act f(\"(\", [a]) // \x7d").isOk = true := by decide +kernel
  have hbrackets : Text.brackets .code "act f(\"(\", [a]) // \x7d".toList =
      ['(', '[', ']', ')'] := by decide
  cases hread : Script.read "act f(\"(\", [a]) // \x7d" with
  | error diagnostic =>
    rw [hread] at hok
    cases hok
  | ok script =>
    have hbalanced := (Script.balanced_of_read _ script hread).1
    rw [hbrackets] at hbalanced
    exact ⟨hbrackets, hbalanced⟩

end Dialogue
