import Dialogue.Proofs.Nesting.Expression
import Dialogue.Proofs.Opening.Lexeme

/-!
# Expressions report strings without an end

Each reader of a form of expression is `Reporting` if the readers for the expressions inside are.
The bounds do not matter here: a reader that stops at its bound gives a fault of another kind.
-/

namespace Dialogue

open Text (skip Passes isOrdinary)

namespace Reader

/-! ## Lists and objects -/

section

variable {α : Type} {item : Reader α} {close : Char}

theorem reporting_items (hclose : isOrdinary close = true) (hitem : Reporting item) (n : Nat) :
    Reporting (items close item n) := by
  induction n with
  | zero => exact reporting_exhausted
  | succ n ih =>
    intro text
    rw [items]
    refine Reports.bind (Passes.skip text) (hitem (skip text)) fun first rest hrest => ?_
    have hgap := hrest.trans (Passes.skip rest)
    dsimp only
    split
    · rename_i after heat
      have hafter := hgap.trans (passes_of_eat? heat (by decide))
      exact Reports.bind hafter (ih after) fun others rest hrest => Reports.ok hrest
    · exact Reports.expect hgap hclose fun rest hrest => Reports.ok hrest

theorem reporting_enclosed (hclose : isOrdinary close = true) (hitem : Reporting item)
    (n : Nat) : Reporting (enclosed close item n) := by
  intro text
  have hskip := Passes.skip text
  rw [enclosed]
  split
  · rename_i rest heat
    exact Reports.ok (hskip.trans (passes_of_eat? heat hclose))
  · exact (reporting_items hclose hitem n (skip text)).within hskip

end

theorem reporting_fieldKey : Reporting fieldKey := by
  intro text
  rw [fieldKey]
  split
  · exact reporting_string text
  split
  · exact Reports.bind (Passes.refl text) (reporting_numeral text) fun _ rest hrest =>
      Reports.ok hrest
  · exact reporting_identifier text

section

variable {expr : Reader Expr}

theorem reporting_fields (hexpr : Reporting expr) (n : Nat) : Reporting (fields expr n) := by
  induction n with
  | zero => exact reporting_exhausted
  | succ n ih =>
    intro text
    have hskip := Passes.skip text
    rw [fields]
    split
    · rename_i rest heat
      exact Reports.ok (hskip.trans (passes_of_eat? heat (by decide)))
    · refine Reports.bind hskip (reporting_fieldKey (skip text)) fun key rest hrest => ?_
      refine Reports.expect (hrest.trans (Passes.skip rest)) (by decide) fun rest hrest => ?_
      refine Reports.bind (hrest.trans (Passes.skip rest)) (hexpr (skip rest)) ?_
      intro value rest hrest
      have hgap := hrest.trans (Passes.skip rest)
      dsimp only
      split
      · rename_i after heat
        have hafter := hgap.trans (passes_of_eat? heat (by decide))
        exact Reports.bind hafter (ih after) fun others rest hrest => Reports.ok hrest
      · exact Reports.expect hgap (by decide) fun rest hrest => Reports.ok hrest

theorem reporting_object (hexpr : Reporting expr) (n : Nat) : Reporting (object expr n) := by
  intro text
  rw [object]
  refine Reports.expect (Passes.refl text) (by decide) fun rest hrest => ?_
  exact (reporting_fields hexpr n rest).within hrest

/-! ## Operands -/

theorem reporting_parenthesized (hexpr : Reporting expr) : Reporting (parenthesized expr) := by
  intro text
  rw [parenthesized]
  refine Reports.bind (Passes.skip text) (hexpr (skip text)) fun inner rest hrest => ?_
  refine Reports.expect (hrest.trans (Passes.skip rest)) (by decide) fun rest hrest => ?_
  exact Reports.ok hrest

theorem reporting_primary (hexpr : Reporting expr) (n : Nat) : Reporting (primary expr n) := by
  intro text
  cases text with
  | nil => exact Reports.fault (by simp)
  | cons c more =>
    rw [primary]
    split
    · exact Reports.bind (Passes.refl _) (reporting_string _) fun _ rest hrest => Reports.ok hrest
    split
    · exact Reports.bind (Passes.refl _) (reporting_numeral _) fun _ rest hrest => Reports.ok hrest
    split
    · exact Reports.bind (Passes.refl _) (reporting_object hexpr n _) fun _ rest hrest =>
        Reports.ok hrest
    split
    · rename_i hopen
      have hmore : Passes (c :: more) more := Passes.ordinary (hopen ▸ by decide)
      exact Reports.bind hmore (reporting_enclosed (by decide) hexpr n more) fun _ rest hrest =>
        Reports.ok hrest
    split
    · rename_i hopen
      have hmore : Passes (c :: more) more := Passes.ordinary (hopen ▸ by decide)
      exact (reporting_parenthesized hexpr more).within hmore
    split
    · rename_i word rest hword
      exact Reports.ok (passes_of_word? hword)
    · exact Reports.fault (by simp)

/-- Each round of the loop over indexings and calls reads one reporting form. -/
theorem reporting_trailers (hexpr : Reporting expr) (n k : Nat) (target : Expr) :
    Reporting (trailers expr n k target) := by
  induction k generalizing target with
  | zero => exact reporting_exhausted
  | succ k ih =>
    intro text
    rw [trailers]
    split
    · rename_i rest heat
      have hrest := (passes_of_eat? heat (by decide)).trans (Passes.skip rest)
      refine Reports.bind hrest (hexpr (skip rest)) fun property rest hrest => ?_
      refine Reports.expect (hrest.trans (Passes.skip rest)) (by decide) fun rest hrest => ?_
      exact (ih _ rest).within hrest
    split
    · rename_i rest heat
      have hrest := passes_of_eat? heat (by decide)
      refine Reports.bind hrest (reporting_enclosed (by decide) hexpr n rest) ?_
      intro args rest hrest
      exact (ih _ rest).within hrest
    · exact Reports.ok (Passes.refl text)

theorem reporting_operand (hexpr : Reporting expr) (n k : Nat) :
    Reporting (operand expr n k) := by
  induction k with
  | zero => exact reporting_exhausted
  | succ k ih =>
    intro text
    rw [operand]
    split
    · rename_i rest heat
      rw [eatNot?_eq] at heat
      have hrest := (passes_of_eatUnless heat (by decide)).trans (Passes.skip rest)
      exact Reports.bind hrest (ih (skip rest)) fun inner rest hrest => Reports.ok hrest
    · refine Reports.bind (Passes.refl text) (reporting_primary hexpr n text) ?_
      intro target rest hrest
      exact (reporting_trailers hexpr n n target rest).within hrest

/-! ## Operators -/

/-- An operator after a gap starts no comment: the gap takes the comments. -/
theorem passes_of_operator? {level : List Operator} {op : Operator} {text rest : List Char}
    (h : operator? level (skip text) = some (op, rest)) : Passes (skip text) rest := by
  have heat := eatText?_of_operator? h
  by_cases hop : op = .div
  · have hslash : skip text = '/' :: rest := by
      rw [hop] at heat
      exact eatText?_eq_some heat
    rw [hslash]
    exact Passes.cons (by decide) (Text.skip_eq_cons hslash).2
  · apply passes_of_eatText? heat
    cases op with
    | div => exact absurd rfl hop
    | _ => decide

theorem reporting_operations {level : List Operator} {tighter : Reader Expr}
    (htighter : Reporting tighter) (n : Nat) (left : Expr) :
    Reporting (operations level tighter n left) := by
  induction n generalizing left with
  | zero => exact reporting_exhausted
  | succ n ih =>
    intro text
    rw [operations]
    split
    · exact Reports.ok (Passes.refl text)
    · rename_i op rest hop
      have hafter := (Passes.skip text).trans (passes_of_operator? hop)
      have hrest := hafter.trans (Passes.skip rest)
      refine Reports.bind hrest (htighter (skip rest)) fun right rest hrest => ?_
      exact (ih _ rest).within hrest

theorem reporting_binary {tightest : Reader Expr} (htightest : Reporting tightest) (n : Nat)
    (levels : List (List Operator)) : Reporting (binary tightest n levels) := by
  induction levels with
  | nil => exact htightest
  | cons level levels ih =>
    intro text
    rw [binary]
    refine Reports.bind (Passes.refl text) (ih text) fun left rest hrest => ?_
    exact (reporting_operations ih n left rest).within hrest

end

theorem reporting_expressionAt (n : Nat) : Reporting (expressionAt n) := by
  induction n with
  | zero => exact reporting_exhausted
  | succ n ih => exact reporting_binary (reporting_operand ih _ _) _ _

end Reader

end Dialogue
