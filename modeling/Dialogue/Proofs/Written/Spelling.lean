import Dialogue.Proofs.Written.Statement

/-!
# How forks may be written

A fork can be written in two ways: with the word `fork` and a block of branches, or as a chain of
`if` and `else`, if all its branches have conditions but perhaps the last of several.
`Statement.Spelled` says which texts a statement has if each fork in it, at any depth, is written in
either way. The text of `Statement.write` is one of them (`Statement.spelled_write`).
-/

namespace Dialogue

/-! ## Branches as they are written -/

/-- A branch as it is written: its condition, and the lines of its body. -/
structure Clause where
  condition : Option Expr
  lines : List Char

namespace Clause

/-- How clauses are written in a block of branches, each from a line of its own. -/
def forkLines : List Clause → List Char
  | [] => []
  | clause :: clauses =>
    conditionText clause.condition ++ ' ' :: (blockText clause.lines ++ '\n' :: forkLines clauses)

/-- How a clause is written in a chain: only a condition asks for the word `if`. -/
def text : Clause → List Char
  | ⟨none, lines⟩ => blockText lines
  | ⟨some condition, lines⟩ => phrase "if " ++ (condition.writeWrapped ++ ' ' :: blockText lines)

/-- How the clauses after the first one are written in a chain. -/
def elseText : List Clause → List Char
  | [] => []
  | clause :: clauses => phrase " else " ++ (clause.text ++ elseText clauses)

/-- How clauses are written as a chain. -/
def chainText : List Clause → List Char
  | [] => []
  | clause :: clauses => clause.text ++ elseText clauses

end Clause

/-- Branches that a chain can have: the first has a condition, and so have all others but perhaps
the last. -/
def Branch.Chained {σ : Type} : List (Branch σ) → Prop
  | [] => False
  | first :: others =>
    first.condition.isSome = true ∧ ∀ branch ∈ others.dropLast, branch.condition.isSome = true

/-! ## Texts of statements -/

/-- A statement without statements inside. -/
def Statement.IsSimple : Statement → Prop
  | .perform _ _ => True
  | .set _ _ => True
  | .run _ _ _ none => True
  | .use _ _ => True
  | _ => False

mutual

/-- A text of a statement: each fork in it is a block of branches or a chain. -/
inductive Statement.Spelled : Statement → List Char → Prop where
  | simple {s : Statement} (h : s.IsSimple) : Statement.Spelled s s.write
  | fork (scheme : Option (List (String × Expr))) {branches : List (Branch Statement)}
    {clauses : List Clause} (h : Branch.SpelledEach branches clauses) :
    Statement.Spelled (.fork ⟨scheme, branches⟩)
      (schemeText scheme ++ (phrase "fork " ++ blockText (Clause.forkLines clauses)))
  | chain (scheme : Option (List (String × Expr))) {branches : List (Branch Statement)}
    {clauses : List Clause} (hchained : Branch.Chained branches)
    (h : Branch.SpelledEach branches clauses) :
    Statement.Spelled (.fork ⟨scheme, branches⟩) (schemeText scheme ++ Clause.chainText clauses)
  | input (result : String) (scheme : Option (List (String × Expr)))
    {branches : List (Branch Statement)} {clauses : List Clause}
    (h : Branch.SpelledEach branches clauses) :
    Statement.Spelled (.input result ⟨scheme, branches⟩)
      (phrase "input -> " ++ (result.toList ++ ' ' :: blockText (Clause.forkLines clauses)))
  | await (condition : Expr) {body : List Statement} {lines : List Char}
    (h : Statement.SpelledLines body lines) :
    Statement.Spelled (.await condition body)
      (phrase "await " ++ (condition.writeWrapped ++ ' ' :: blockText lines))
  | once {body : List Statement} {lines : List Char} (h : Statement.SpelledLines body lines) :
    Statement.Spelled (.once body) (phrase "once " ++ blockText lines)
  | run (name : Expr) (args : List Expr) (result : Option String)
    (scheme : Option (List (String × Expr))) {branches : List (Branch Statement)}
    {clauses : List Clause} (h : Branch.SpelledEach branches clauses) :
    Statement.Spelled (.run name args result (some ⟨scheme, branches⟩))
      (callText name args ++ (resultText result ++ ' ' :: blockText (Clause.forkLines clauses)))
  | define (name : String) (params : List String) {body : List Statement} {lines : List Char}
    (h : Statement.SpelledLines body lines) :
    Statement.Spelled (.define name params body)
      (phrase "def " ++ (name.toList ++ '(' :: (joined (params.map String.toList) ++
        ')' :: ' ' :: blockText lines)))

/-- Clauses of branches: their conditions, and a text of each body. -/
inductive Branch.SpelledEach : List (Branch Statement) → List Clause → Prop where
  | nil : Branch.SpelledEach [] []
  | cons (condition : Option Expr) {body : List Statement} {lines : List Char}
    {branches : List (Branch Statement)} {clauses : List Clause}
    (hbody : Statement.SpelledLines body lines) (h : Branch.SpelledEach branches clauses) :
    Branch.SpelledEach (⟨condition, body⟩ :: branches) (⟨condition, lines⟩ :: clauses)

/-- A text of statements, each from a line of its own. -/
inductive Statement.SpelledLines : List Statement → List Char → Prop where
  | nil : Statement.SpelledLines [] []
  | cons {s : Statement} {text : List Char} {statements : List Statement} {lines : List Char}
    (hfirst : Statement.Spelled s text) (h : Statement.SpelledLines statements lines) :
    Statement.SpelledLines (s :: statements) (text ++ '\n' :: lines)

end

/-! ## The text of the writer -/

/-- The clauses of branches with the text that is written for each body. -/
def Branch.clauses (branches : List (Branch Statement)) : List Clause :=
  branches.map fun branch => ⟨branch.condition, Statement.writeLines branch.body⟩

theorem Branch.writeLines_eq (branches : List (Branch Statement)) :
    Branch.writeLines branches = Clause.forkLines (Branch.clauses branches) := by
  induction branches with
  | nil => rfl
  | cons branch branches ih =>
    rw [Branch.writeLines, ih]
    rfl

mutual

/-- What is written for a statement is a text of it. -/
theorem Statement.spelled_write : ∀ s : Statement, s.Spelled s.write
  | .fork ⟨scheme, branches⟩ => by
    rw [Statement.write, Fork.writeBlock, Branch.writeLines_eq]
    exact .fork scheme (Branch.spelledEach_clauses branches)
  | .input result ⟨scheme, branches⟩ => by
    rw [Statement.write, Fork.writeBlock, Branch.writeLines_eq]
    exact .input result scheme (Branch.spelledEach_clauses branches)
  | .await condition body => by
    rw [Statement.write]
    exact .await condition (Statement.spelledLines_writeLines body)
  | .once body => by
    rw [Statement.write]
    exact .once (Statement.spelledLines_writeLines body)
  | .perform _ _ => .simple trivial
  | .set _ _ => .simple trivial
  | .run _ _ _ none => .simple trivial
  | .run name args result (some ⟨scheme, branches⟩) => by
    rw [Statement.write, Fork.writeBlock, Branch.writeLines_eq]
    exact .run name args result scheme (Branch.spelledEach_clauses branches)
  | .use _ _ => .simple trivial
  | .define name params body => by
    rw [Statement.write]
    exact .define name params (Statement.spelledLines_writeLines body)

theorem Branch.spelledEach_clauses : ∀ branches : List (Branch Statement),
    Branch.SpelledEach branches (Branch.clauses branches)
  | [] => .nil
  | ⟨condition, body⟩ :: branches =>
    .cons condition (Statement.spelledLines_writeLines body) (Branch.spelledEach_clauses branches)

theorem Statement.spelledLines_writeLines : ∀ statements : List Statement,
    Statement.SpelledLines statements (Statement.writeLines statements)
  | [] => .nil
  | s :: statements => by
    rw [Statement.writeLines]
    exact .cons s.spelled_write (Statement.spelledLines_writeLines statements)

end

end Dialogue
