import Dialogue.Proofs.RoundTrip.Expression
import Dialogue.Proofs.Written.Spelling
import Dialogue.Reader.Statement

/-!
# Blocks and branches are read back

A statement has no terminator, so it is read back only in front of a line that cannot go on with
it. `LineStart` says what such a line must not be, and every text of a statement starts like that,
as do the end of a block and the end of the text. Given readers for the expressions and the
statements inside, blocks and lists of branches are then read back line by line.
-/

namespace Dialogue

open Text (skip isSolid)

namespace Reader

/-! ## What may follow a statement -/

/-- A text that, on a line of its own, cannot go on with the statement before it. -/
structure LineStart (text : List Char) : Prop where
  skip_eq : skip text = text
  operators : ∀ op, eatOperator? op text = none
  arrow : eatText? ['-', '>'] text = none
  brace : eat? '{' text = none
  comma : eat? ',' text = none
  noElse : eatWord? "else" text = none

/-- Whether a character alone keeps a line from going on with the statement before it. -/
def startsLine (c : Char) : Bool :=
  isSolid c && !startsOperator c && c != '{' && c != ',' && c != 'e'

/-- How written statements start. -/
inductive StatementStart : List Char → Prop where
  | scheme (rest : List Char) : StatementStart ('#' :: rest)
  | target (rest : List Char) : StatementStart ('(' :: rest)
  | keyword (k : Keyword) (rest : List Char) : StatementStart (k.text.toList ++ ' ' :: rest)

namespace LineStart

theorem nil : LineStart [] where
  skip_eq := rfl
  operators op := by cases op <;> rfl
  arrow := rfl
  brace := rfl
  comma := rfl
  noElse := rfl

/-- A text with another first character does not start with the word `else`. -/
theorem eatWord?_else {c : Char} (hc : c ≠ 'e') (rest : List Char) :
    eatWord? "else" (c :: rest) = none := by
  rw [eatWord?, word?]
  by_cases hstart : isWordStart c = true
  · rw [if_pos hstart]
    apply if_neg
    intro heq
    have hchars := congrArg String.toList heq
    rw [String.toList_ofList] at hchars
    exact hc (List.cons.inj hchars).1
  · rw [if_neg hstart]

theorem cons {c : Char} (hc : startsLine c = true) (rest : List Char) : LineStart (c :: rest) := by
  simp only [startsLine, Bool.and_eq_true, Bool.not_eq_true', bne_iff_ne] at hc
  obtain ⟨⟨⟨⟨hsolid, hoperator⟩, hbrace⟩, hcomma⟩, helse⟩ := hc
  have harrow : c ≠ '-' := (Text.ne_of_true_of_false (by decide) hoperator).symm
  exact ⟨Text.skip_cons hsolid rest, fun op => eatOperator?_cons hoperator op rest,
    if_neg harrow, eat?_ne hbrace rest, eat?_ne hcomma rest, eatWord?_else helse rest⟩

/-- A keyword is no operator, not even `input`, which starts like `in`. -/
theorem keyword (k : Keyword) (rest : List Char) : LineStart (k.text.toList ++ ' ' :: rest) := by
  cases k with
  | condition => exact ⟨rfl, fun op => by cases op <;> rfl, rfl, rfl, rfl, rfl⟩
  | input => exact ⟨rfl, fun op => by cases op <;> rfl, rfl, rfl, rfl, rfl⟩
  | perform verb => cases verb <;> exact cons (by decide) _
  | _ => exact cons (by decide) _

/-- The line before ends the expressions in it. -/
theorem ends {text : List Char} (h : LineStart text) (levels : List (List Operator)) :
    Ends levels ('\n' :: text) := by
  refine Ends.blank (Or.inr rfl) fun level _ => ?_
  rw [h.skip_eq]
  exact operator?_eq_none h.operators level

end LineStart

namespace StatementStart

variable {text : List Char}

theorem lineStart (h : StatementStart text) : LineStart text := by
  cases h with
  | scheme rest => exact LineStart.cons (by decide) rest
  | target rest => exact LineStart.cons (by decide) rest
  | keyword k rest => exact LineStart.keyword k rest

/-- No statement starts like the end of a block. -/
theorem exists_cons (h : StatementStart text) : ∃ c cs, text = c :: cs ∧ c ≠ '}' := by
  cases h with
  | scheme rest => exact ⟨'#', rest, rfl, by decide⟩
  | target rest => exact ⟨'(', rest, rfl, by decide⟩
  | keyword k rest =>
    cases k with
    | perform verb => cases verb <;> exact ⟨_, _, rfl, by decide⟩
    | _ => exact ⟨_, _, rfl, by decide⟩

end StatementStart

theorem elements_ne_nil {target : Target} (h : target.Plain) : target.elements ≠ [] := by
  cases target with
  | name x => exact List.cons_ne_nil _ _
  | list elements => exact h.1
  | edit root keys => exact List.cons_ne_nil _ _

/-- The targets of an assignment start with a parenthesis. -/
theorem exists_joined_writeWrapped {es : List Expr} (h : es ≠ []) :
    ∃ cs, joined (es.map Expr.writeWrapped) = '(' :: cs := by
  obtain ⟨e, es, rfl⟩ := List.exists_cons_of_ne_nil h
  cases es with
  | nil => exact ⟨_, rfl⟩
  | cons next others => exact ⟨_, rfl⟩

theorem statementStart_simple {s : Statement} (hsimple : s.IsSimple) (h : s.Plain)
    (rest : List Char) : StatementStart (s.write ++ rest) := by
  cases s with
  | perform verb value =>
    rw [Statement.write, List.append_assoc]
    exact .keyword (.perform verb) _
  | set target value =>
    obtain ⟨cs, htext⟩ := exists_joined_writeWrapped (elements_ne_nil h.1)
    rw [Statement.write, Target.write, htext]
    exact .target _
  | run name args result choice =>
    cases choice with
    | none =>
      rw [Statement.write]
      exact .keyword .run _
    | some choice => exact hsimple.elim
  | use name imports =>
    rw [Statement.write]
    exact .keyword .use _
  | _ => exact hsimple.elim

/-- The first clause of a chain has a condition. -/
theorem exists_chainText {branches : List (Branch Statement)} {clauses : List Clause}
    (h : Branch.SpelledEach branches clauses) (hchained : Branch.Chained branches) :
    ∃ cs, Clause.chainText clauses = phrase "if " ++ cs := by
  cases h with
  | nil => exact hchained.elim
  | cons condition hbody hothers =>
    obtain ⟨e, rfl⟩ := Option.isSome_iff_exists.1 hchained.1
    exact ⟨_, rfl⟩

theorem statementStart_spelled {s : Statement} {text : List Char} (h : s.Spelled text)
    (hs : s.Plain) (rest : List Char) : StatementStart (text ++ rest) := by
  cases h with
  | simple hsimple => exact statementStart_simple hsimple hs rest
  | fork scheme hclauses =>
    cases scheme with
    | none => exact .keyword .fork _
    | some fields => exact .scheme _
  | chain scheme hchained hclauses =>
    obtain ⟨cs, htext⟩ := exists_chainText hclauses hchained
    rw [htext]
    cases scheme with
    | none => exact .keyword .condition _
    | some fields => exact .scheme _
  | input result scheme hclauses => exact .keyword .input _
  | await condition hlines => exact .keyword .await _
  | once hlines => exact .keyword .once _
  | run name args result scheme hclauses => exact .keyword .run _
  | define name params hlines => exact .keyword .define _

/-! ## Lines -/

/-- A reader that gives back every wrapped expression that is shorter than a bound. -/
def ReadsWrapped (expr : Reader Expr) (n : Nat) : Prop :=
  ∀ e : Expr, e.Plain → e.writeWrapped.length < n → ∀ rest, Ends Operator.levels rest →
    expr (e.writeWrapped ++ rest) = .ok (e, rest)

/-- A reader that gives back every statement from its texts that are shorter than a bound. -/
def ReadsLine (statement : Reader Statement) (n : Nat) : Prop :=
  ∀ (s : Statement) (text : List Char), s.Spelled text → s.Plain → text.length < n →
    ∀ more, LineStart more → statement (text ++ '\n' :: more) = .ok (s, '\n' :: more)

/-- What ends a list of statements: the end of the text, or a closing brace. -/
inductive ClosesBlock : List Char → Prop where
  | nil : ClosesBlock []
  | brace (rest : List Char) : ClosesBlock ('}' :: rest)

theorem ClosesBlock.lineStart {rest : List Char} (h : ClosesBlock rest) : LineStart rest := by
  cases h with
  | nil => exact LineStart.nil
  | brace rest => exact LineStart.cons (by decide) rest

theorem lineStart_spelledLines {ss : List Statement} {lines : List Char}
    (h : Statement.SpelledLines ss lines) (hss : Statement.PlainEach ss) {rest : List Char}
    (hrest : ClosesBlock rest) : LineStart (lines ++ rest) := by
  cases h with
  | nil => exact hrest.lineStart
  | cons hfirst hothers =>
    rw [List.append_assoc]
    exact (statementStart_spelled hfirst hss.1 _).lineStart

theorem length_le_of_spelledLines {ss : List Statement} {lines : List Char}
    (h : Statement.SpelledLines ss lines) : ss.length ≤ lines.length := by
  induction ss generalizing lines with
  | nil => exact Nat.zero_le _
  | cons s ss ih =>
    cases h with
    | cons hfirst hothers =>
      have hle := ih hothers
      rw [List.length_append, List.length_cons, List.length_cons]
      omega

section

variable {expr : Reader Expr} {statement : Reader Statement} {n : Nat}

theorem statements_newline (k : Nat) (text : List Char) :
    statements statement (k + 1) ('\n' :: text) = statements statement (k + 1) text := by
  rw [statements, statements, Text.skip_newline]

theorem statements_of_closesBlock {rest : List Char} (h : ClosesBlock rest) (k : Nat) :
    statements statement (k + 1) rest = .ok ([], rest) := by
  cases h with
  | nil => rfl
  | brace rest => rfl

/-- One round of reading statements. -/
theorem statements_cons {s : Statement} {text rest : List Char} (hstart : StatementStart text)
    (hread : statement text = .ok (s, rest)) (k : Nat) :
    statements statement (k + 1) text = (do
      let (others, rest) ← statements statement k rest
      .ok (s :: others, rest)) := by
  have hskip := hstart.lineStart.skip_eq
  obtain ⟨c, cs, rfl, hc⟩ := hstart.exists_cons
  simp only [statements, hskip, if_neg hc, hread, ok_bind]

/-- Lines are read back up to what ends them. -/
theorem statements_spelledLines (hstatement : ReadsLine statement n) {ss : List Statement}
    {lines : List Char} (h : Statement.SpelledLines ss lines) (hss : Statement.PlainEach ss)
    (hlength : lines.length ≤ n) {k : Nat} (hk : ss.length < k) {rest : List Char}
    (hrest : ClosesBlock rest) :
    statements statement k (lines ++ rest) = .ok (ss, rest) := by
  induction ss generalizing lines k with
  | nil =>
    obtain ⟨k, rfl⟩ : ∃ j, k = j + 1 := ⟨k - 1, by rw [List.length_nil] at hk; omega⟩
    cases h
    exact statements_of_closesBlock hrest k
  | cons s ss ih =>
    obtain ⟨k, rfl⟩ : ∃ j, k = j + 2 := ⟨k - 2, by rw [List.length_cons] at hk; omega⟩
    rw [List.length_cons] at hk
    cases h with
    | @cons _ text _ lines hfirst hothers =>
      rw [List.length_append, List.length_cons] at hlength
      rw [List.append_assoc, List.cons_append]
      have hread := hstatement s text hfirst hss.1 (by omega) (lines ++ rest)
        (lineStart_spelledLines hothers hss.2 hrest)
      have hmore := ih hothers hss.2 (by omega) (Nat.lt_of_succ_lt_succ hk)
      rw [statements_cons (statementStart_spelled hfirst hss.1 _) hread, statements_newline, hmore,
        ok_bind]

/-! ## Blocks -/

theorem blockText_append (lines rest : List Char) :
    blockText lines ++ rest = '{' :: '\n' :: (lines ++ '}' :: rest) := by
  simp [blockText]

theorem length_blockText (lines : List Char) : (blockText lines).length = lines.length + 3 := by
  simp [blockText]

theorem block_spelledLines (hstatement : ReadsLine statement n) {body : List Statement}
    {lines : List Char} (h : Statement.SpelledLines body lines) (hbody : Statement.PlainEach body)
    (hlength : (blockText lines).length ≤ n) (rest : List Char) :
    block statement (n + 1) (blockText lines ++ rest) = .ok (body, rest) := by
  rw [length_blockText] at hlength
  have hle := length_le_of_spelledLines h
  have hread := statements_spelledLines hstatement h hbody (by omega)
    (by omega : body.length < n + 1) (ClosesBlock.brace rest)
  rw [blockText_append, block]
  simp only [expect_self, ok_bind, statements_newline, hread]
  rfl

/-! ## Branches -/

theorem Ends.brace (levels : List (List Operator)) (rest : List Char) :
    Ends levels (' ' :: '{' :: rest) :=
  Ends.blank (Or.inl rfl) fun level _ => operator?_cons (by decide) level rest

theorem condition_conditionText (hexpr : ReadsWrapped expr n) {found : Option Expr}
    (hfound : ∀ e ∈ found, e.Plain) (hlength : (conditionText found).length < n)
    (rest : List Char) :
    condition expr (conditionText found ++ ' ' :: '{' :: rest) = .ok (found, '{' :: rest) := by
  cases found with
  | none => rfl
  | some e =>
    have hread := hexpr e (hfound e rfl) hlength _ (Ends.brace Operator.levels rest)
    have hdefault : eatDefault? (e.writeWrapped ++ ' ' :: '{' :: rest) = none := rfl
    have hif : eatWord? "if" (e.writeWrapped ++ ' ' :: '{' :: rest) = none := rfl
    rw [conditionText, condition, hdefault, hif]
    simp only [hread, ok_bind, Option.isSome_none, Bool.false_eq_true, if_false]
    rfl

theorem branch_clause (hexpr : ReadsWrapped expr n) {found : Option Expr} {body : List Statement}
    {lines : List Char} (hfound : ∀ e ∈ found, e.Plain)
    (hlength : (conditionText found).length < n) {rest : List Char}
    (hblock : block statement (n + 1) (blockText lines ++ rest) = .ok (body, rest)) :
    branch expr statement (n + 1) (conditionText found ++ ' ' :: (blockText lines ++ rest)) =
      .ok (⟨found, body⟩, rest) := by
  rw [blockText_append] at hblock ⊢
  rw [branch, condition_conditionText hexpr hfound hlength, ok_bind]
  simp only [hblock, ok_bind]

theorem branchList_newline (m k : Nat) (text : List Char) :
    branchList expr statement m (k + 1) ('\n' :: text) =
      branchList expr statement m (k + 1) text := by
  rw [branchList, branchList, Text.skip_newline]

theorem branchList_brace (m k : Nat) (rest : List Char) :
    branchList expr statement m (k + 1) ('}' :: rest) = .ok ([], '}' :: rest) := rfl

/-- No branch starts like the end of a block. -/
theorem exists_conditionText (found : Option Expr) :
    ∃ c cs, conditionText found = c :: cs ∧ isSolid c = true ∧ c ≠ '}' := by
  cases found with
  | none => exact ⟨'_', [], rfl, by decide, by decide⟩
  | some e => exact ⟨'(', _, rfl, by decide, by decide⟩

theorem length_le_of_spelledEach {bs : List (Branch Statement)} {clauses : List Clause}
    (h : Branch.SpelledEach bs clauses) : bs.length ≤ (Clause.forkLines clauses).length := by
  induction bs generalizing clauses with
  | nil => exact Nat.zero_le _
  | cons b bs ih =>
    cases h with
    | cons condition hbody hothers =>
      have hle := ih hothers
      simp only [Clause.forkLines, List.length_append, List.length_cons]
      omega

theorem branchList_forkLines (hexpr : ReadsWrapped expr n) (hstatement : ReadsLine statement n)
    {bs : List (Branch Statement)} {clauses : List Clause} (h : Branch.SpelledEach bs clauses)
    (hbs : Branch.PlainEach bs) (hlength : (Clause.forkLines clauses).length ≤ n) {k : Nat}
    (hk : bs.length < k) (rest : List Char) :
    branchList expr statement (n + 1) k (Clause.forkLines clauses ++ '}' :: rest) =
      .ok (bs, '}' :: rest) := by
  induction bs generalizing clauses k with
  | nil =>
    obtain ⟨k, rfl⟩ : ∃ j, k = j + 1 := ⟨k - 1, by rw [List.length_nil] at hk; omega⟩
    cases h
    exact branchList_brace (n + 1) k rest
  | cons b bs ih =>
    obtain ⟨k, rfl⟩ : ∃ j, k = j + 2 := ⟨k - 2, by rw [List.length_cons] at hk; omega⟩
    rw [List.length_cons] at hk
    cases h with
    | @cons found body lines _ clauses hlines hclauses =>
      obtain ⟨hfound, hbody, hothers⟩ := hbs
      simp only [Clause.forkLines, List.length_append, List.length_cons] at hlength
      have hblock := block_spelledLines hstatement hlines hbody (by omega)
        ('\n' :: (Clause.forkLines clauses ++ '}' :: rest))
      have hfirst := branch_clause hexpr hfound (by omega) hblock
      have hmore := ih hclauses hothers (by omega) (Nat.lt_of_succ_lt_succ hk)
      obtain ⟨c, cs, htext, hsolid, hc⟩ := exists_conditionText found
      simp only [Clause.forkLines, List.append_assoc, List.cons_append]
      rw [htext, List.cons_append] at hfirst ⊢
      rw [branchList]
      simp only [Text.skip_cons hsolid, if_neg hc, hfirst, ok_bind, branchList_newline, hmore]

/-- A block of branches is read back. -/
theorem branches_forkLines (hexpr : ReadsWrapped expr n) (hstatement : ReadsLine statement n)
    {bs : List (Branch Statement)} {clauses : List Clause} (h : Branch.SpelledEach bs clauses)
    (hbs : Branch.PlainEach bs) (hlength : (blockText (Clause.forkLines clauses)).length ≤ n)
    (rest : List Char) :
    branches expr statement (n + 1) (blockText (Clause.forkLines clauses) ++ rest) =
      .ok (bs, rest) := by
  rw [length_blockText] at hlength
  have hle := length_le_of_spelledEach h
  have hread := branchList_forkLines hexpr hstatement h hbs (by omega)
    (by omega : bs.length < n + 1) rest
  rw [blockText_append, branches]
  simp only [expect_self, ok_bind, branchList_newline, hread]

end

end Reader

end Dialogue
