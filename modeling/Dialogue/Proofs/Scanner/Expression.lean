import Dialogue.Proofs.Progress.Expression
import Dialogue.Proofs.Scanner.Lexeme
import Dialogue.Scanner.Expression

/-!
# Scanners of expressions refine readers

Each form of an expression is scanned as it is read, given that the expressions inside it are
(`hexpr`). The bounds of the scanner and of the reader are the same, so nothing is said of them
here: where one of the two stops at its bound, so does the other (`refines_expressionAt`).
-/

namespace Dialogue

open Text (byteLength sliceTo? sliceFrom? slice? isBlank)

/-- Reads an expression that no operator is part of, with its indexings and calls. -/
def Reader.trailed (expr : Reader Expr) (n : Nat) : Reader Expr := fun text => do
  let (target, text) ← primary expr n text
  trailers expr n n target text

namespace Scanner

variable {α β : Type} {source text rest : List Char} {cursor : Nat}

theorem Refines.exhausted {α : Type} :
    Refines (Scanner.fault .exhausted : Scanner α) (Reader.fault .exhausted) :=
  fun _ _ _ h => Agrees.fault h _

/-! ## Lists and objects -/

theorem refines_items {close : Char} {item : Scanner α} {read : Reader α}
    (hitem : Refines item read) (n : Nat) :
    Refines (items close item n) (Reader.items close read n) := by
  induction n with
  | zero => exact Refines.exhausted
  | succ n ih =>
    intro source cursor text h
    rw [items, Reader.items]
    refine Agrees.skip h fun h => ?_
    refine Agrees.bind (hitem h) fun h => ?_
    refine Agrees.skip h fun h => ?_
    refine Agrees.eat h (fun h => ?_) ?_
    · exact Agrees.bind (ih h) fun h => Agrees.pure h _
    · exact Agrees.pass h (passes_expect _) fun h => Agrees.pure h _

theorem refines_enclosed {close : Char} {item : Scanner α} {read : Reader α}
    (hitem : Refines item read) (n : Nat) :
    Refines (enclosed close item n) (Reader.enclosed close read n) := by
  intro source cursor text h
  rw [enclosed, Reader.enclosed]
  refine Agrees.skip h fun h => ?_
  exact Agrees.eat h (fun h => Agrees.pure h _) (refines_items hitem n h)

theorem eq_append_of_numeral {run : List Char} {value : Double}
    (h : Reader.numeral text = .ok ((run, value), rest)) : text = run ++ rest := by
  rw [Reader.numeral] at h
  split at h
  · cases h
  · rename_i hrun
    split at h
    · cases h
      exact (Reader.numeralRun?_eq_some hrun).2
    · cases h

/-- A numeral is kept as the slice between the cursors before and after it. -/
theorem agrees_numeralKey (h : Stands source cursor text) :
    Agrees source ((do
      let start ← Scanner.cursor
      let _ ← numeral
      let stop ← Scanner.cursor
      return String.ofList (← sliced (slice? start stop)) : Scanner String).on source cursor)
      (do
        let ((run, _), rest) ← Reader.numeral text
        .ok (String.ofList run, rest)) := by
  have hnumeral := refines_numeral h
  rw [Reader.number] at hnumeral
  rw [cursor_bind]
  cases hread : Reader.numeral text with
  | error fault =>
    rw [hread] at hnumeral
    obtain ⟨offset, hscan, hrest⟩ := hnumeral.of_error
    rw [bind_fault hscan]
    exact ⟨rfl, hrest⟩
  | ok found =>
    obtain ⟨⟨run, value⟩, rest⟩ := found
    rw [hread] at hnumeral
    obtain ⟨stop, hscan, hrest⟩ := hnumeral.of_ok
    rw [eq_append_of_numeral hread] at h
    rw [bind_done hscan, cursor_bind, bind_done (sliced_eq (h.slice_eq hrest) stop)]
    exact ⟨rfl, hrest⟩

theorem refines_fieldKey : Refines fieldKey Reader.fieldKey := by
  intro source cursor text h
  rw [fieldKey, bind_done (peek_eq h), Reader.fieldKey]
  cases text with
  | nil => exact refines_identifier h
  | cons c rest =>
    rw [List.head?_cons, Reader.eat?, Reader.startsNumeral]
    dsimp only
    by_cases hquote : c = '"'
    · rw [if_pos hquote, if_pos hquote]
      exact refines_string h
    · rw [if_neg hquote, if_neg hquote]
      by_cases hnumeral : Reader.isNumeralStart c = true
      · rw [if_pos hnumeral, if_pos hnumeral]
        exact agrees_numeralKey h
      · rw [if_neg hnumeral, if_neg hnumeral]
        exact refines_identifier h

section

variable {scan : Scanner Expr} {read : Reader Expr} (hexpr : Refines scan read) {n : Nat}

include hexpr

theorem refines_fields (k : Nat) : Refines (fields scan k) (Reader.fields read k) := by
  induction k with
  | zero => exact Refines.exhausted
  | succ k ih =>
    intro source cursor text h
    rw [fields, Reader.fields]
    refine Agrees.skip h fun h => ?_
    refine Agrees.eat h (fun h => Agrees.pure h _) ?_
    refine Agrees.bind (refines_fieldKey h) fun h => ?_
    refine Agrees.skip h fun h => ?_
    refine Agrees.pass h (passes_expect _) fun h => ?_
    refine Agrees.skip h fun h => ?_
    refine Agrees.bind (hexpr h) fun h => ?_
    refine Agrees.skip h fun h => ?_
    refine Agrees.eat h (fun h => ?_) ?_
    · exact Agrees.bind (ih h) fun h => Agrees.pure h _
    · exact Agrees.pass h (passes_expect _) fun h => Agrees.pure h _

theorem refines_object (n : Nat) : Refines (object scan n) (Reader.object read n) := by
  intro source cursor text h
  rw [object, Reader.object]
  exact Agrees.pass h (passes_expect _) fun h => refines_fields hexpr n h

/-! ## Operands -/

theorem refines_parenthesized : Refines (parenthesized scan) (Reader.parenthesized read) := by
  intro source cursor text h
  rw [parenthesized, Reader.parenthesized]
  refine Agrees.skip h fun h => ?_
  refine Agrees.bind (hexpr h) fun h => ?_
  refine Agrees.skip h fun h => ?_
  exact Agrees.pass h (passes_expect _) fun h => Agrees.pure h _

omit hexpr in
theorem agrees_number (h : Stands source cursor text) :
    Agrees source ((do return .literal (.number (← numeral)) : Scanner Expr).on source cursor)
      (do
        let ((_, value), rest) ← Reader.numeral text
        .ok (.literal (.number value), rest)) := by
  have hagrees : Agrees source
      ((do return .literal (.number (← numeral)) : Scanner Expr).on source cursor)
      (Reader.number text >>= fun found => .ok (.literal (.number found.1), found.2)) :=
    Agrees.bind (refines_numeral h) fun h => Agrees.pure h _
  rw [Reader.number] at hagrees
  cases hread : Reader.numeral text <;> (rw [hread] at hagrees; exact hagrees)

omit hexpr in
theorem agrees_named (h : Stands source cursor text) :
    Agrees source (named.on source cursor)
      (match Reader.word? text with
        | some (word, rest) => .ok (Reader.ofWord word, rest)
        | none => Reader.fault .expectedExpression text) := by
  rw [named, bind_done (peekWord_eq h)]
  cases hword : Reader.word? text with
  | none => exact Agrees.fault h _
  | some found =>
    obtain ⟨word, rest⟩ := found
    have hafter := h.word hword
    rw [Option.map_some]
    dsimp only
    rw [Reader.ofWord]
    split
    · rename_i htrue
      rw [htrue] at hafter
      exact ⟨rfl, hafter⟩
    · split
      · rename_i hfalse
        rw [hfalse] at hafter
        exact ⟨rfl, hafter⟩
      · have hidentifier := refines_identifier h
        rw [Reader.identifier, hword] at hidentifier
        obtain ⟨cursor', hscan, hrest⟩ := Agrees.of_ok hidentifier
        rw [bind_done hscan]
        exact ⟨rfl, hrest⟩

theorem refines_primary (n : Nat) : Refines (primary scan n) (Reader.primary read n) := by
  intro source cursor text h
  rw [primary, bind_done (peek_eq h)]
  cases text with
  | nil => exact agrees_named h
  | cons c rest =>
    rw [List.head?_cons, Reader.primary]
    dsimp only
    split
    · exact Agrees.bind (refines_string h) fun h => Agrees.pure h _
    · split
      · exact agrees_number h
      · split
        · exact Agrees.bind (refines_object hexpr n h) fun h => Agrees.pure h _
        · split
          · rename_i hbracket
            rw [advance_bind]
            rw [hbracket] at h
            exact Agrees.bind (refines_enclosed hexpr n h.cons) fun h => Agrees.pure h _
          · split
            · rename_i hparenthesis
              rw [advance_bind]
              rw [hparenthesis] at h
              exact refines_parenthesized hexpr h.cons
            · exact agrees_named h

theorem refines_trailers (n k : Nat) (target : Expr) :
    Refines (trailers scan n k target) (Reader.trailers read n k target) := by
  induction k generalizing target with
  | zero => exact Refines.exhausted
  | succ k ih =>
    intro source cursor text h
    rw [trailers, Reader.trailers]
    refine Agrees.eat h (fun h => ?_) (Agrees.eat h (fun h => ?_) (Agrees.pure h _))
    · refine Agrees.skip h fun h => ?_
      refine Agrees.bind (hexpr h) fun h => ?_
      refine Agrees.skip h fun h => ?_
      exact Agrees.pass h (passes_expect _) fun h => ih _ h
    · exact Agrees.bind (refines_enclosed hexpr n h) fun h => ih _ h

theorem refines_trailed (n : Nat) : Refines (trailed scan n) (Reader.trailed read n) := by
  intro source cursor text h
  rw [trailed, Reader.trailed]
  exact Agrees.bind (refines_primary hexpr n h) fun h => refines_trailers hexpr n n _ h

omit hexpr in
theorem seesNot_eq (h : Stands source cursor text) :
    seesNot.on source cursor = .done (Reader.eatNot? text).isSome cursor := by
  rw [seesNot, bind_done (remaining_eq h)]
  show Scanned.done (text.head? == some '!' && text[1]? != some '=') cursor = _
  congr 1
  match text with
  | [] => rfl
  | [c] => by_cases hc : c = '!' <;> simp [Reader.eatNot?, Reader.eat?, hc]
  | c :: d :: rest =>
    by_cases hc : c = '!' <;> by_cases hd : d = '=' <;>
      simp [Reader.eatNot?, Reader.eat?, hc, hd]

theorem refines_operand (n k : Nat) : Refines (operand scan n k) (Reader.operand read n k) := by
  induction k with
  | zero => exact Refines.exhausted
  | succ k ih =>
    intro source cursor text h
    rw [operand, Reader.operand]
    refine Agrees.look (seesNot_eq h) (fun rest hnot => ?_) ?_
    · rw [Reader.eatNot?_eq] at hnot
      rw [Reader.eatUnless_eq_some hnot] at h
      rw [advance_bind]
      refine Agrees.skip h.cons fun h => ?_
      exact Agrees.bind (ih h) fun h => Agrees.pure h _
    · exact refines_trailed hexpr n h

/-! ## Operators -/

omit hexpr in
/-- A text starts with an operator if the operator can be read. -/
theorem startsOperator_eq (op : Operator) (text : List Char) :
    startsOperator text op = (Reader.eatOperator? op text).isSome := by
  rw [startsOperator, isPrefixOf_eq, Reader.eatOperator?]
  cases heat : Reader.eatText? op.text.toList text with
  | none => rfl
  | some rest =>
    rw [Reader.eatText?_eq_some heat, Text.sliceFrom?_byteLength]
    cases op.isWord with
    | false => rfl
    | true =>
      show (rest.head?.any isBlank) = _
      cases hblank : rest.head?.any isBlank <;> simp [hblank]

omit hexpr in
theorem peekOperator_eq (h : Stands source cursor text) (level : List Operator) :
    (peekOperator level).on source cursor =
      .done ((Reader.operator? level text).map Prod.fst) cursor := by
  rw [peekOperator, bind_done (startsWith_eq h _), Reader.operator?]
  cases (Reader.eatText? ['-', '>'] text).isSome with
  | true => rfl
  | false =>
    show Scanner.on (remaining >>= fun text => pure (level.find? (startsOperator text)))
      source cursor = _
    rw [bind_done (remaining_eq h), if_neg Bool.false_ne_true]
    show Scanned.done _ cursor = _
    congr 1
    induction level with
    | nil => rfl
    | cons op level ih =>
      rw [List.find?_cons, List.findSome?_cons, startsOperator_eq]
      cases heat : Reader.eatOperator? op text with
      | none => exact ih
      | some rest => rfl

section

omit hexpr

variable {tight : Scanner Expr} {tighter : Reader Expr}

theorem refines_operations (htight : Refines tight tighter) (level : List Operator) (n : Nat)
    (left : Expr) :
    Refines (operations level tight n left) (Reader.operations level tighter n left) := by
  induction n generalizing left with
  | zero => exact Refines.exhausted
  | succ n ih =>
    intro source cursor text h
    rw [operations, Reader.operations, cursor_bind]
    refine Agrees.skip h fun hskip => ?_
    rw [bind_done (peekOperator_eq hskip level)]
    cases hop : Reader.operator? level (Text.skip text) with
    | none =>
      show Agrees source ((moveTo cursor >>= fun _ => pure left).on source _) (.ok (left, text))
      rw [moveTo_bind]
      exact Agrees.pure h _
    | some found =>
      obtain ⟨op, rest⟩ := found
      rw [Reader.eatText?_eq_some (Reader.eatText?_of_operator? hop)] at hskip
      rw [Option.map_some]
      dsimp only
      rw [advance_bind]
      refine Agrees.skip hskip.append fun h => ?_
      exact Agrees.bind (htight h) fun h => ih _ h

theorem refines_binary (htight : Refines tight tighter) (n : Nat) (levels : List (List Operator)) :
    Refines (binary tight n levels) (Reader.binary tighter n levels) := by
  induction levels with
  | nil => exact htight
  | cons level levels ih =>
    intro source cursor text h
    rw [binary, Reader.binary]
    exact Agrees.bind (ih h) fun h => refines_operations ih level n _ h

end

end

theorem refines_expressionAt (n : Nat) : Refines (expressionAt n) (Reader.expressionAt n) := by
  induction n with
  | zero => exact Refines.exhausted
  | succ n ih =>
    intro source cursor text h
    rw [expressionAt, Reader.expressionAt]
    exact refines_binary (refines_operand ih (n + 1) (n + 1)) (n + 1) Operator.levels h

end Scanner

end Dialogue
