import Dialogue.Proofs.Progress.Statement
import Dialogue.Proofs.Scanner.Expression
import Dialogue.Scanner.Statement

/-!
# Scanners of statements refine readers

Each form of a statement is scanned as it is read, given that the expressions (`hexpr`) and the
statements (`hstatement`) inside it are. A scanner starts at the first word of its form, and the
reader after that word.
-/

namespace Dialogue

open Text (byteLength sliceTo? sliceFrom? slice? isBlank)

/-- Reads a scheme, and the gap after it. -/
def Reader.scheme (expr : Reader Expr) (n : Nat) : Reader (List (String × Expr)) := fun text => do
  let (fields, text) ← object expr n (← expect '#' text)
  .ok (fields, Text.skip text)

/-- A sign is that of an assignment unless it is doubled. -/
theorem Reader.eatAssign?_eq_ite (text : List Char) :
    eatAssign? text = if (eatText? ['=', '='] text).isSome then none else eat? '=' text := by
  match text with
  | [] => rfl
  | [c] => by_cases hc : c = '=' <;> simp [eatAssign?, eat?, eatText?, hc]
  | c :: d :: rest =>
    by_cases hc : c = '=' <;> by_cases hd : d = '=' <;>
      simp [eatAssign?, eat?, eatText?, hc, hd]

namespace Scanner

variable {β : Type} {source text rest : List Char} {cursor : Nat}

/-! ## Looking ahead -/

theorem closes_eq (h : Stands source cursor text) :
    closes.on source cursor = .done (text.isEmpty || (Reader.eat? '}' text).isSome) cursor := by
  rw [closes, bind_done (atEnd_eq h)]
  cases text with
  | nil => rfl
  | cons c text => exact sees_eq h '}'

theorem seesDefault_eq (h : Stands source cursor text) :
    seesDefault.on source cursor = .done (Reader.eatDefault? text).isSome cursor := by
  rw [seesDefault, bind_done (remaining_eq h)]
  show Scanned.done (text.head? == some '_' && !text[1]?.any Reader.isWordPart) cursor = _
  congr 1
  match text with
  | [] => rfl
  | [c] => by_cases hc : c = '_' <;> simp [Reader.eatDefault?, Reader.eat?, hc]
  | c :: d :: rest =>
    by_cases hc : c = '_' <;> cases hd : Reader.isWordPart d <;>
      simp [Reader.eatDefault?, Reader.eat?, hc, hd]

theorem peekKeyword_eq (h : Stands source cursor text) :
    peekKeyword.on source cursor = .done ((Reader.keyword? text).map Prod.fst) cursor := by
  rw [peekKeyword, bind_done (peekWord_eq h), Reader.keyword?]
  cases hword : Reader.word? text with
  | none => rfl
  | some found =>
    obtain ⟨word, rest⟩ := found
    rw [Option.map_some]
    dsimp only [Option.bind_eq_bind, Option.bind_some]
    cases hkeyword : Keyword.ofText? word with
    | none => rfl
    | some keyword =>
      have htext := (Reader.word?_eq_some hword).2
      have hslice : sliceFrom? (byteLength word.toList) text = some rest := by
        rw [htext, Text.sliceFrom?_byteLength]
      have hassigns : (assignsAfter (byteLength word.toList)).on source cursor =
          .done (Reader.assigns rest) cursor := by
        have hafter : (sliced fun _ => sliceFrom? (byteLength word.toList) text).on source cursor =
            .done rest cursor := sliced_eq hslice cursor
        rw [assignsAfter, bind_done (remaining_eq h)]
        exact bind_done hafter
      dsimp only
      rw [bind_done hassigns]
      cases Reader.assigns rest <;> rfl

/-- What is scanned after the sign of an assignment. -/
theorem Agrees.eatAssign {yes no : Scanner β} {taken : List Char → Except Fault (β × List Char)}
    {left : Except Fault (β × List Char)} (h : Stands source cursor text)
    (hyes : ∀ {cursor rest}, Stands source cursor rest →
      Agrees source (yes.on source cursor) (taken rest))
    (hno : Agrees source (no.on source cursor) left) :
    Agrees source ((Scanner.eatAssign >>= fun b => if b = true then yes else no).on source cursor)
      (match Reader.eatAssign? text with
        | none => left
        | some rest => taken rest) := by
  have hscan : Scanner.eatAssign.on source cursor =
      .done (Reader.eatAssign? text).isSome
        (if (Reader.eatAssign? text).isSome then cursor + 1 else cursor) := by
    rw [Scanner.eatAssign, bind_done (startsWith_eq h _), Reader.eatAssign?_eq_ite]
    cases (Reader.eatText? ['=', '='] text).isSome with
    | true => rfl
    | false => exact eat_eq h '='
  rw [bind_done hscan]
  cases hassign : Reader.eatAssign? text with
  | none => exact hno
  | some rest =>
    rw [Reader.eatAssign?_eq] at hassign
    rw [Reader.eatUnless_eq_some hassign] at h
    exact hyes h.cons

/-! ## Blocks and branches -/

section

variable {scan : Scanner Expr} {read : Reader Expr} (hexpr : Refines scan read)
  {body : Scanner Statement} {statement : Reader Statement} (hstatement : Refines body statement)

section

include hstatement

theorem refines_statements (n : Nat) :
    Refines (statements body n) (Reader.statements statement n) := by
  induction n with
  | zero => exact Refines.exhausted
  | succ n ih =>
    intro source cursor text h
    rw [statements, Reader.statements]
    refine Agrees.skip h fun h => ?_
    rw [bind_done (closes_eq h)]
    generalize Text.skip text = text at h
    cases text with
    | nil => exact Agrees.pure h _
    | cons c rest =>
      dsimp only
      by_cases hc : c = '}'
      · rw [if_pos hc, Reader.eat?, if_pos hc]
        exact Agrees.pure h _
      · rw [if_neg hc, Reader.eat?, if_neg hc]
        refine Agrees.bind (hstatement h) fun h => ?_
        exact Agrees.bind (ih h) fun h => Agrees.pure h _

theorem refines_block (n : Nat) : Refines (block body n) (Reader.block statement n) := by
  intro source cursor text h
  rw [block, Reader.block]
  refine Agrees.pass h (passes_expect _) fun h => ?_
  refine Agrees.bind (refines_statements hstatement n h) fun h => ?_
  refine Agrees.skip h fun h => ?_
  exact Agrees.pass h (passes_expect _) fun h => Agrees.pure h _

end

include hexpr in
theorem refines_condition : Refines (condition scan) (Reader.condition read) := by
  intro source cursor text h
  rw [condition, Reader.condition]
  refine Agrees.look (seesDefault_eq h) (fun rest hdefault => ?_) ?_
  · rw [Reader.eatDefault?_eq] at hdefault
    rw [Reader.eatUnless_eq_some hdefault] at h
    rw [advance_bind]
    refine Agrees.skip h.cons fun h => ?_
    refine Agrees.test (sees_eq h '{') (fun hbrace => ?_) (Agrees.fault h _)
    obtain ⟨more, heat⟩ := Option.isSome_iff_exists.1 hbrace
    refine Agrees.skip h fun h => ?_
    rw [Reader.eat?_eq_some heat, Text.skip_cons (by decide)] at h
    rw [Reader.eat?_eq_some heat]
    exact Agrees.pure h _
  · refine Agrees.test (seesWord_eq h "if") (fun _ => Agrees.fault h _) ?_
    refine Agrees.bind (hexpr h) fun h => ?_
    exact Agrees.skip h fun h => Agrees.pure h _

include hexpr hstatement

theorem refines_branch (n : Nat) :
    Refines (branch scan body n) (Reader.branch read statement n) := by
  intro source cursor text h
  rw [branch, Reader.branch]
  refine Agrees.bind (refines_condition hexpr h) fun h => ?_
  exact Agrees.bind (refines_block hstatement n h) fun h => Agrees.pure h _

theorem refines_branchList (n k : Nat) :
    Refines (branchList scan body n k) (Reader.branchList read statement n k) := by
  induction k with
  | zero => exact Refines.exhausted
  | succ k ih =>
    intro source cursor text h
    rw [branchList, Reader.branchList]
    refine Agrees.skip h fun h => ?_
    rw [bind_done (closes_eq h)]
    generalize Text.skip text = text at h
    cases text with
    | nil => exact Agrees.pure h _
    | cons c rest =>
      dsimp only
      by_cases hc : c = '}'
      · rw [if_pos hc, Reader.eat?, if_pos hc]
        exact Agrees.pure h _
      · rw [if_neg hc, Reader.eat?, if_neg hc]
        refine Agrees.bind (refines_branch hexpr hstatement n h) fun h => ?_
        exact Agrees.bind (ih h) fun h => Agrees.pure h _

theorem refines_branches (n : Nat) :
    Refines (branches scan body n) (Reader.branches read statement n) := by
  intro source cursor text h
  rw [branches, Reader.branches]
  refine Agrees.pass h (passes_expect _) fun h => ?_
  refine Agrees.bind (refines_branchList hexpr hstatement n n h) fun h => ?_
  exact Agrees.pass h (passes_expect _) fun h => Agrees.pure h _

/-! ## Forms of statements -/

theorem refines_conditional (n k : Nat) :
    Refines (conditional scan body n k)
      (Reader.atWord "if" (Reader.conditional read statement n k)) := by
  induction k with
  | zero =>
    intro source cursor text h
    exact Agrees.pass h (passes_expectWord _) fun h => Agrees.fault h _
  | succ k ih =>
    intro source cursor text h
    rw [conditional]
    refine Agrees.pass h (passes_expectWord _) fun h => ?_
    rw [Reader.conditional]
    refine Agrees.pass h (passes_expectBlank _) fun h => ?_
    refine Agrees.bind (hexpr h) fun h => ?_
    refine Agrees.skip h fun h => ?_
    refine Agrees.bind (refines_block hstatement n h) fun hbody => ?_
    rw [cursor_bind]
    dsimp only
    refine Agrees.skip hbody fun h => ?_
    refine Agrees.lookElse (seesWord_eq h "else") (fun rest helse => ?_) ?_
    · rw [advance_bind]
      refine Agrees.skip (h.word (Reader.word?_of_eatWord? helse)) fun h => ?_
      refine Agrees.test (sees_eq h '{') (fun _ => ?_) ?_
      · exact Agrees.bind (refines_block hstatement n h) fun h => Agrees.pure h _
      · refine Agrees.look (seesWord_eq h "if") (fun rest hif => ?_) (Agrees.fault h _)
        exact Agrees.bind ((ih h).atWord hif) fun h => Agrees.pure h _
    · rw [moveTo_bind]
      exact Agrees.pure hbody _

theorem refines_fork (n : Nat) :
    Refines (fork scan body n)
      (Reader.atWord "fork" fun text => Reader.branches read statement n (Text.skip text)) := by
  intro source cursor text h
  rw [fork]
  refine Agrees.pass h (passes_expectWord _) fun h => ?_
  exact Agrees.skip h fun h => refines_branches hexpr hstatement n h

omit hstatement in
theorem refines_scheme (n : Nat) : Refines (scheme scan n) (Reader.scheme read n) := by
  intro source cursor text h
  rw [scheme, Reader.scheme]
  refine Agrees.pass h (passes_expect _) fun h => ?_
  refine Agrees.bind (refines_object hexpr n h) fun h => ?_
  exact Agrees.skip h fun h => Agrees.pure h _

theorem refines_schemed (n : Nat) :
    Refines (schemed scan body n) (fun text => do
      let (fields, text) ← Reader.scheme read n text
      Reader.schemed read statement n fields text) := by
  intro source cursor text h
  rw [schemed]
  refine Agrees.bind (refines_scheme hexpr n h) fun h => ?_
  dsimp only
  rw [Reader.schemed]
  refine Agrees.look (seesWord_eq h "if") (fun rest hif => ?_) ?_
  · have hconditional := (refines_conditional hexpr hstatement n n h).atWord hif
    exact Agrees.bind hconditional fun h => Agrees.pure h _
  · refine Agrees.look (seesWord_eq h "fork") (fun rest hfork => ?_) (Agrees.fault h _)
    have hbranches := (refines_fork hexpr hstatement n h).atWord hfork
    exact Agrees.bind hbranches fun h => Agrees.pure h _

theorem refines_input (n : Nat) :
    Refines (input scan body n) (Reader.atWord "input" (Reader.input read statement n)) := by
  intro source cursor text h
  rw [input]
  refine Agrees.pass h (passes_expectWord _) fun h => ?_
  rw [Reader.input]
  refine Agrees.skip h fun h => ?_
  refine Agrees.fixedText h "->" fun h => ?_
  refine Agrees.skip h fun h => ?_
  refine Agrees.bind (refines_identifier h) fun h => ?_
  refine Agrees.skip h fun h => ?_
  exact Agrees.bind (refines_branches hexpr hstatement n h) fun h => Agrees.pure h _

omit hstatement in
theorem refines_runArguments (n : Nat) (name : Expr) :
    Refines (runArguments scan n name) (Reader.runArguments read n name) := by
  intro source cursor text h
  rw [runArguments, Reader.runArguments, cursor_bind]
  refine Agrees.skip h fun hskip => ?_
  refine Agrees.eat hskip (fun h => ?_) ?_
  · exact Agrees.bind (refines_enclosed hexpr n h) fun h => Agrees.pure h _
  · rw [moveTo_bind]
    exact Agrees.pure h _

theorem refines_run (n : Nat) :
    Refines (run scan body n) (Reader.atWord "run" (Reader.run read statement n)) := by
  intro source cursor text h
  rw [run]
  refine Agrees.pass h (passes_expectWord _) fun h => ?_
  rw [Reader.run]
  refine Agrees.skip h fun h => ?_
  refine Agrees.bind (hexpr h) fun h => ?_
  refine Agrees.bind (refines_runArguments hexpr n _ h) fun {call} _ _ h => ?_
  obtain ⟨name, args⟩ := call
  dsimp only
  rw [cursor_bind]
  refine Agrees.skip h fun hskip => ?_
  refine Agrees.lookElse (startsWith_eq hskip _) (fun rest harrow => ?_) ?_
  · rw [Reader.eatText?_eq_some harrow] at hskip
    rw [advance_bind]
    refine Agrees.skip hskip.append fun h => ?_
    refine Agrees.bind (refines_identifier h) fun h => ?_
    rw [cursor_bind]
    refine Agrees.skip h fun hskip => ?_
    refine Agrees.test (sees_eq hskip '{') (fun _ => ?_) ?_
    · exact Agrees.bind (refines_branches hexpr hstatement n hskip) fun h => Agrees.pure h _
    · rw [moveTo_bind]
      exact Agrees.pure h _
  · rw [moveTo_bind]
    exact Agrees.pure h _

omit hexpr hstatement in
theorem refines_imports (n : Nat) : Refines (imports n) (Reader.imports n) := by
  induction n with
  | zero => exact Refines.exhausted
  | succ n ih =>
    intro source cursor text h
    rw [imports, Reader.imports]
    refine Agrees.skip h fun h => ?_
    refine Agrees.bind (refines_identifier h) fun h => ?_
    rw [cursor_bind]
    refine Agrees.skip h fun hskip => ?_
    refine Agrees.eat hskip (fun h => ?_) ?_
    · exact Agrees.bind (ih h) fun h => Agrees.pure h _
    · rw [moveTo_bind]
      exact Agrees.pure h _

omit hexpr hstatement in
theorem refines_use (n : Nat) :
    Refines (use n) (Reader.atWord "use" (Reader.use n)) := by
  intro source cursor text h
  rw [use]
  refine Agrees.pass h (passes_expectWord _) fun h => ?_
  rw [Reader.use]
  refine Agrees.pass h (passes_expectBlank _) fun h => ?_
  refine Agrees.test (sees_eq h '"') (fun _ => ?_) (Agrees.fault h _)
  refine Agrees.bind (refines_string h) fun h => ?_
  refine Agrees.pass h (passes_expectBlank _) fun h => ?_
  refine Agrees.pass h (passes_expectWord _) fun h => ?_
  exact Agrees.bind (refines_imports n h) fun h => Agrees.pure h _

omit hexpr in
theorem refines_define (n : Nat) :
    Refines (define body n) (Reader.atWord "def" (Reader.define statement n)) := by
  intro source cursor text h
  rw [define]
  refine Agrees.pass h (passes_expectWord _) fun h => ?_
  rw [Reader.define]
  refine Agrees.pass h (passes_expectBlank _) fun h => ?_
  refine Agrees.bind (refines_identifier h) fun h => ?_
  refine Agrees.skip h fun h => ?_
  refine Agrees.pass h (passes_expect _) fun h => ?_
  refine Agrees.bind (refines_enclosed refines_identifier n h) fun h => ?_
  refine Agrees.skip h fun h => ?_
  exact Agrees.bind (refines_block hstatement n h) fun h => Agrees.pure h _

omit hstatement in
theorem refines_targets (n : Nat) : Refines (targets scan n) (Reader.targets read n) := by
  induction n with
  | zero => exact Refines.exhausted
  | succ n ih =>
    intro source cursor text h
    rw [targets, Reader.targets]
    refine Agrees.skip h fun h => ?_
    refine Agrees.bind (hexpr h) fun h => ?_
    refine Agrees.skip h fun h => ?_
    refine Agrees.eat h (fun h => ?_) (Agrees.pure h _)
    exact Agrees.bind (ih h) fun h => Agrees.pure h _

omit hstatement in
theorem refines_assignment (n : Nat) :
    Refines (assignment scan n) (Reader.assignment read n) := by
  intro source cursor text h
  rw [assignment, Reader.assignment]
  refine Agrees.bind (refines_targets hexpr n h) fun h => ?_
  refine Agrees.eatAssign h (fun h => ?_) (Agrees.fault h _)
  refine Agrees.skip h fun h => ?_
  exact Agrees.bind (hexpr h) fun h => Agrees.pure h _

/-! ## All forms -/

/-- A statement is scanned at its keyword and read after it. -/
theorem agrees_keyworded (n : Nat) {keyword : Keyword} (h : Stands source cursor text)
    (hword : Reader.eatWord? keyword.text text = some rest) :
    Agrees source ((keyworded scan body n keyword).on source cursor)
      (Reader.keyworded read statement n keyword rest) := by
  have hafter := h.word (Reader.word?_of_eatWord? hword)
  cases keyword with
  | condition =>
    rw [keyworded, Reader.keyworded]
    have hconditional := (refines_conditional hexpr hstatement n n h).atWord hword
    exact Agrees.bind hconditional fun h => Agrees.pure h _
  | fork =>
    rw [keyworded, Reader.keyworded]
    have hfork := (refines_fork hexpr hstatement n h).atWord hword
    exact Agrees.bind hfork fun h => Agrees.pure h _
  | input => exact (refines_input hexpr hstatement n h).atWord hword
  | await =>
    rw [keyworded, Reader.keyworded, advance_bind]
    refine Agrees.pass hafter (passes_expectBlank _) fun h => ?_
    refine Agrees.bind (hexpr h) fun h => ?_
    refine Agrees.skip h fun h => ?_
    exact Agrees.bind (refines_block hstatement n h) fun h => Agrees.pure h _
  | once =>
    rw [keyworded, Reader.keyworded, advance_bind]
    refine Agrees.skip hafter fun h => ?_
    exact Agrees.bind (refines_block hstatement n h) fun h => Agrees.pure h _
  | perform verb =>
    rw [keyworded, Reader.keyworded, advance_bind]
    refine Agrees.pass hafter (passes_expectBlank _) fun h => ?_
    exact Agrees.bind (hexpr h) fun h => Agrees.pure h _
  | run => exact (refines_run hexpr hstatement n h).atWord hword
  | use => exact (refines_use n h).atWord hword
  | define => exact (refines_define hstatement n h).atWord hword

theorem refines_oneStatement (n : Nat) :
    Refines (oneStatement scan body n) (Reader.oneStatement read statement n) := by
  intro source cursor text h
  rw [oneStatement, Reader.oneStatement]
  refine Agrees.look (sees_eq h '#') (fun rest heat => ?_) ?_
  · have hschemed := refines_schemed hexpr hstatement n h
    have hscheme : Reader.scheme read n text = (do
        let (fields, text) ← Reader.object read n rest
        .ok (fields, Text.skip text)) := by
      rw [Reader.scheme.eq_def, Reader.expect, heat]
      rfl
    dsimp only at hschemed
    rw [hscheme] at hschemed
    cases hobject : Reader.object read n rest <;> (rw [hobject] at hschemed; exact hschemed)
  · rw [bind_done (peekKeyword_eq h)]
    cases hkeyword : Reader.keyword? text with
    | none => exact refines_assignment hexpr n h
    | some found =>
      exact agrees_keyworded hexpr hstatement n h (Reader.eatWord?_of_keyword? hkeyword)

end

theorem refines_statementAt (n : Nat) : Refines (statementAt n) (Reader.statementAt n) := by
  induction n with
  | zero => exact Refines.exhausted
  | succ n ih =>
    intro source cursor text h
    rw [statementAt, Reader.statementAt]
    exact refines_oneStatement (refines_expressionAt (n + 1)) ih (n + 1) h

/-! ## The whole source -/

theorem agrees_script (source : List Char) :
    Agrees source ((script (source.length + 1)).on source 0)
      (do .ok (← Reader.script source, [])) := by
  rw [script, Reader.script, bind_assoc]
  refine Agrees.bind (refines_statements (refines_statementAt _) _ (Stands.start source)) ?_
  intro found cursor rest h
  refine Agrees.skip h fun h => ?_
  rw [bind_done (atEnd_eq h)]
  dsimp only
  generalize Text.skip rest = text at h
  cases text with
  | nil => exact Agrees.pure h found
  | cons c rest =>
    show Agrees source ((peek >>= fun next => fault (.unexpected (next.getD '\x00'))).on source _)
      (Reader.fault (.unexpected c) (c :: rest))
    rw [bind_done (peek_eq h)]
    exact Agrees.fault h _

end Scanner

end Dialogue
