import Dialogue.Proofs.Nesting.Lexeme

/-!
# Expressions close their brackets

Each reader of a form of expression is `Nesting` if the readers for the expressions inside are. The
readers that start after an opening bracket are `Closing`: they read the bracket that it awaits.
A division is the one place where a slash is code, and no comment starts there because the gap in
front of the operator has been passed over.
-/

namespace Dialogue

open Text (skip Closed isInert bracketPairs)

namespace Reader

/-! ## Lists and objects -/

section

variable {α : Type} {item : Reader α} {opening close : Char}

theorem closing_items (pair : (opening, close) ∈ bracketPairs) (hitem : Nesting item) (n : Nat) :
    Closing close (items close item n) := by
  induction n with
  | zero => exact closing_fault _ _
  | succ n ih =>
    intro text values rest hread awaited h
    simp only [items, bind_eq_ok_iff, Prod.exists] at hread
    obtain ⟨first, after, hfirst, hread⟩ := hread
    apply Closed.of_skip
    apply hitem hfirst
    apply Closed.of_skip
    split at hread
    · rename_i more heat
      simp only [bind_eq_ok_iff, Prod.exists, Except.ok.injEq, Prod.mk.injEq] at hread
      obtain ⟨others, last, hothers, -, rfl⟩ := hread
      exact closed_of_eat? heat (by decide) (ih hothers h)
    · simp only [bind_eq_ok_iff, Except.ok.injEq, Prod.mk.injEq] at hread
      obtain ⟨last, hclose, -, rfl⟩ := hread
      rw [expect_eq_ok hclose]
      exact h.closing pair

theorem closing_enclosed (pair : (opening, close) ∈ bracketPairs) (hitem : Nesting item) (n : Nat) :
    Closing close (enclosed close item n) := by
  intro text values rest hread awaited h
  apply Closed.of_skip
  rw [enclosed] at hread
  split at hread
  · rename_i more heat
    cases hread
    rw [eat?_eq_some heat]
    exact h.closing pair
  · exact closing_items pair hitem n hread h

end

theorem nesting_fieldKey : Nesting fieldKey := by
  intro text key rest hread awaited h
  rw [fieldKey] at hread
  split at hread
  · exact nesting_string hread h
  split at hread
  · simp only [bind_eq_ok_iff, Prod.exists, Except.ok.injEq, Prod.mk.injEq] at hread
    obtain ⟨run, value, after, hnumeral, -, rfl⟩ := hread
    exact nesting_numeral hnumeral h
  · exact nesting_identifier hread h

section

variable {expr : Reader Expr}

theorem closing_fields (hexpr : Nesting expr) (n : Nat) : Closing '}' (fields expr n) := by
  induction n with
  | zero => exact closing_fault _ _
  | succ n ih =>
    intro text found rest hread awaited h
    apply Closed.of_skip
    rw [fields] at hread
    split at hread
    · rename_i more heat
      cases hread
      rw [eat?_eq_some heat]
      exact h.closing Text.braces_mem
    · simp only [bind_eq_ok_iff, Prod.exists] at hread
      obtain ⟨key, afterKey, hkey, afterColon, hcolon, value, after, hvalue, hread⟩ := hread
      apply nesting_fieldKey hkey
      apply Closed.of_skip
      rw [expect_eq_ok hcolon]
      apply Closed.inert (by decide)
      apply Closed.of_skip
      apply hexpr hvalue
      apply Closed.of_skip
      split at hread
      · rename_i more heat
        simp only [bind_eq_ok_iff, Prod.exists, Except.ok.injEq, Prod.mk.injEq] at hread
        obtain ⟨others, last, hothers, -, rfl⟩ := hread
        exact closed_of_eat? heat (by decide) (ih hothers h)
      · simp only [bind_eq_ok_iff, Except.ok.injEq, Prod.mk.injEq] at hread
        obtain ⟨last, hclose, -, rfl⟩ := hread
        rw [expect_eq_ok hclose]
        exact h.closing Text.braces_mem

theorem nesting_object (hexpr : Nesting expr) (n : Nat) : Nesting (object expr n) := by
  intro text found rest hread awaited h
  simp only [object, bind_eq_ok_iff] at hread
  obtain ⟨after, hopen, hfields⟩ := hread
  rw [expect_eq_ok hopen]
  exact (closing_fields hexpr n hfields h).opening Text.braces_mem

/-! ## Operands -/

theorem closing_parenthesized (hexpr : Nesting expr) : Closing ')' (parenthesized expr) := by
  intro text found rest hread awaited h
  simp only [parenthesized, bind_eq_ok_iff, Prod.exists, Except.ok.injEq, Prod.mk.injEq] at hread
  obtain ⟨inner, after, hinner, last, hclose, -, rfl⟩ := hread
  apply Closed.of_skip
  apply hexpr hinner
  apply Closed.of_skip
  rw [expect_eq_ok hclose]
  exact h.closing Text.parentheses_mem

theorem nesting_primary (hexpr : Nesting expr) (n : Nat) : Nesting (primary expr n) := by
  intro text found rest hread awaited h
  cases text with
  | nil => cases hread
  | cons c more =>
    rw [primary] at hread
    split at hread
    · simp only [bind_eq_ok_iff, Prod.exists, Except.ok.injEq, Prod.mk.injEq] at hread
      obtain ⟨content, after, hstring, -, rfl⟩ := hread
      exact nesting_string hstring h
    split at hread
    · simp only [bind_eq_ok_iff, Prod.exists, Except.ok.injEq, Prod.mk.injEq] at hread
      obtain ⟨run, value, after, hnumeral, -, rfl⟩ := hread
      exact nesting_numeral hnumeral h
    split at hread
    · simp only [bind_eq_ok_iff, Prod.exists, Except.ok.injEq, Prod.mk.injEq] at hread
      obtain ⟨fields, after, hobject, -, rfl⟩ := hread
      exact nesting_object hexpr n hobject h
    split at hread
    · rename_i hopen
      simp only [bind_eq_ok_iff, Prod.exists, Except.ok.injEq, Prod.mk.injEq] at hread
      obtain ⟨elements, after, helements, -, rfl⟩ := hread
      rw [hopen]
      exact (closing_enclosed Text.squares_mem hexpr n helements h).opening Text.squares_mem
    split at hread
    · rename_i hopen
      rw [hopen]
      exact (closing_parenthesized hexpr hread h).opening Text.parentheses_mem
    split at hread
    · rename_i word after hword
      cases hread
      exact closed_of_word? hword h
    · cases hread

/-- Each round of the loop over indexings and calls opens a bracket and closes it. -/
theorem nesting_trailers (hexpr : Nesting expr) (n k : Nat) (target : Expr) :
    Nesting (trailers expr n k target) := by
  induction k generalizing target with
  | zero => exact nesting_fault _
  | succ k ih =>
    intro text found rest hread awaited h
    rw [trailers] at hread
    split at hread
    · rename_i more heat
      simp only [bind_eq_ok_iff, Prod.exists] at hread
      obtain ⟨property, after, hproperty, last, hclose, hread⟩ := hread
      rw [eat?_eq_some heat]
      apply Closed.opening Text.squares_mem
      apply Closed.of_skip
      apply hexpr hproperty
      apply Closed.of_skip
      rw [expect_eq_ok hclose]
      exact (ih _ hread h).closing Text.squares_mem
    split at hread
    · rename_i more heat
      simp only [bind_eq_ok_iff, Prod.exists] at hread
      obtain ⟨args, after, hargs, hread⟩ := hread
      rw [eat?_eq_some heat]
      apply Closed.opening Text.parentheses_mem
      exact closing_enclosed Text.parentheses_mem hexpr n hargs (ih _ hread h)
    · cases hread
      exact h

theorem nesting_operand (hexpr : Nesting expr) (n k : Nat) : Nesting (operand expr n k) := by
  induction k with
  | zero => exact nesting_fault _
  | succ k ih =>
    intro text found rest hread awaited h
    rw [operand] at hread
    split at hread
    · rename_i more heat
      simp only [bind_eq_ok_iff, Prod.exists, Except.ok.injEq, Prod.mk.injEq] at hread
      obtain ⟨inner, after, hinner, -, rfl⟩ := hread
      rw [eatNot?_eq] at heat
      exact closed_of_eatUnless heat (by decide) (ih hinner h).of_skip
    · simp only [bind_eq_ok_iff, Prod.exists] at hread
      obtain ⟨target, after, htarget, hread⟩ := hread
      exact nesting_primary hexpr n htarget (nesting_trailers hexpr n n target hread h)

/-! ## Operators -/

/-- An operator after a gap has no bracket in it, and does not start a comment. -/
theorem closed_of_operator? {level : List Operator} {op : Operator} {text rest awaited : List Char}
    (h : operator? level (skip text) = some (op, rest)) (hrest : Closed .code awaited rest) :
    Closed .code awaited (skip text) := by
  have heat := eatText?_of_operator? h
  by_cases hop : op = .div
  · have hslash : skip text = '/' :: rest := by
      rw [hop] at heat
      exact eatText?_eq_some heat
    rw [hslash]
    exact hrest.cons (by decide) (Text.skip_eq_cons hslash).2 (by decide)
  · apply closed_of_eatText? heat ?_ hrest
    cases op with
    | div => exact absurd rfl hop
    | _ => decide

theorem nesting_operations {level : List Operator} {tighter : Reader Expr}
    (htighter : Nesting tighter) (n : Nat) (left : Expr) :
    Nesting (operations level tighter n left) := by
  induction n generalizing left with
  | zero => exact nesting_fault _
  | succ n ih =>
    intro text found rest hread awaited h
    rw [operations] at hread
    split at hread
    · cases hread
      exact h
    · rename_i op more hop
      simp only [bind_eq_ok_iff, Prod.exists] at hread
      obtain ⟨right, after, hright, hread⟩ := hread
      apply Closed.of_skip
      apply closed_of_operator? hop
      apply Closed.of_skip
      exact htighter hright (ih _ hread h)

theorem nesting_binary {tightest : Reader Expr} (htightest : Nesting tightest) (n : Nat)
    (levels : List (List Operator)) : Nesting (binary tightest n levels) := by
  induction levels with
  | nil => exact fun text found rest hread => htightest hread
  | cons level levels ih =>
    intro text found rest hread awaited h
    simp only [binary, bind_eq_ok_iff, Prod.exists] at hread
    obtain ⟨left, after, hleft, hread⟩ := hread
    exact ih hleft (nesting_operations ih n left hread h)

end

/-- Reading an expression closes all brackets that it opens, under any bound. -/
theorem nesting_expressionAt (n : Nat) : Nesting (expressionAt n) := by
  induction n with
  | zero => exact nesting_fault _
  | succ n ih =>
    intro text found rest hread
    exact nesting_binary (nesting_operand ih _ _) _ _ hread

end Reader

end Dialogue
