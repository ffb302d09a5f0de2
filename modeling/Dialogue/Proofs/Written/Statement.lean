import Dialogue.Proofs.Written.Expression
import Dialogue.Script.Statement

/-!
# How scripts are written

`Script.write` writes one statement per line. Every fork is written with the word `fork` and a
block of branches, with `_` for a default branch. All expressions that stand directly in a
statement are in parentheses, so no line can be taken for the continuation of the line before it;
for the same reason a `run` always has its list of arguments, even an empty one.

`Statement.Plain` says which statements can be written, and so which ones a reader can make.
-/

namespace Dialogue

open Reader (isSymbol)

/-! ## The writer -/

/-- The characters of a fixed phrase. -/
def phrase (text : String) : List Char := text.toList

/-- How an expression is written directly in a statement. -/
def Expr.writeWrapped (e : Expr) : List Char := wrapped true (e.write .full)

/-- The chain of indexings of a root by keys. -/
def Expr.indexed (root : Expr) (keys : List Expr) : Expr := keys.foldl Expr.member root

/-- The expressions that the target of an assignment is written with. A single name is written as
a list of targets. -/
def Target.elements : Target → List Expr
  | .name x => [.name x]
  | .list elements => elements
  | .edit root keys => [root.indexed keys]

/-- How the target of an assignment is written. -/
def Target.write (target : Target) : List Char := joined (target.elements.map Expr.writeWrapped)

/-- How the data of a fork is written in front of it. -/
def schemeText : Option (List (String × Expr)) → List Char
  | none => []
  | some fields => '#' :: '{' :: (joined (Expr.writeFields .full fields) ++ ['}', ' '])

/-- How the condition of a branch is written. -/
def conditionText : Option Expr → List Char
  | none => ['_']
  | some e => e.writeWrapped

/-- How the result of a program is written. -/
def resultText : Option String → List Char
  | none => []
  | some x => phrase " -> " ++ x.toList

/-- How an imported name is written. -/
def importText : Literal → List Char
  | .string x => x.toList
  | _ => []

/-- How the start of another program is written. -/
def callText (name : Expr) (args : List Expr) : List Char :=
  phrase "run " ++ (name.writeWrapped ++ ' ' :: '(' ::
    (joined (Expr.writeEach .full args) ++ [')']))

/-- How lines are written in braces. -/
def blockText (lines : List Char) : List Char := '{' :: '\n' :: (lines ++ ['}'])

mutual

/-- How a statement is written. -/
def Statement.write : Statement → List Char
  | .fork choice => schemeText choice.scheme ++ (phrase "fork " ++ Fork.writeBlock choice)
  | .input result choice =>
    phrase "input -> " ++ (result.toList ++ ' ' :: Fork.writeBlock choice)
  | .await condition body =>
    phrase "await " ++ (condition.writeWrapped ++ ' ' :: blockText (Statement.writeLines body))
  | .once body => phrase "once " ++ blockText (Statement.writeLines body)
  | .perform verb value => verb.text.toList ++ ' ' :: value.writeWrapped
  | .set target value => target.write ++ (phrase " = " ++ value.writeWrapped)
  | .run name args result none => callText name args ++ resultText result
  | .run name args result (some choice) =>
    callText name args ++ (resultText result ++ ' ' :: Fork.writeBlock choice)
  | .use name imports =>
    phrase "use " ++ (name.write .full ++ (phrase " import " ++ joined (imports.map importText)))
  | .define name params body =>
    phrase "def " ++ (name.toList ++ '(' :: (joined (params.map String.toList) ++
      ')' :: ' ' :: blockText (Statement.writeLines body)))

/-- How the branches of a fork are written. -/
def Fork.writeBlock : Fork Statement → List Char
  | ⟨_, branches⟩ => blockText (Branch.writeLines branches)

/-- How a list of branches is written, each from a line of its own. -/
def Branch.writeLines : List (Branch Statement) → List Char
  | [] => []
  | ⟨condition, body⟩ :: branches =>
    conditionText condition ++ ' ' :: (blockText (Statement.writeLines body) ++
      '\n' :: Branch.writeLines branches)

/-- How a list of statements is written, each from a line of its own. -/
def Statement.writeLines : List Statement → List Char
  | [] => []
  | statement :: statements => statement.write ++ '\n' :: Statement.writeLines statements

end

/-- The text of a script. -/
def Script.write (script : Script) : String := String.ofList (Statement.writeLines script)

/-! ## What can be written -/

/-- Whether an expression is an indexing. -/
def Expr.isMember : Expr → Bool
  | .member _ _ => true
  | _ => false

/-- A target that can be written: some targets, and not a single indexing, or an edit of a root
that is no indexing itself, by some keys. -/
def Target.Plain : Target → Prop
  | .name _ => False
  | .list elements =>
    elements ≠ [] ∧ (∀ e, elements = [e] → e.isMember = false) ∧ ∀ e ∈ elements, e.Plain
  | .edit root keys => keys ≠ [] ∧ root.isMember = false ∧ root.Plain ∧ ∀ key ∈ keys, key.Plain

/-- The module of a `use` that can be written: a string. -/
def Expr.IsString (e : Expr) : Prop := ∃ s, e = .literal (.string s)

/-- An imported name that can be written: a word. -/
def Literal.IsImport (value : Literal) : Prop := ∃ x, value = .string x ∧ isSymbol x = true

mutual

/-- A statement that can be written. -/
def Statement.Plain : Statement → Prop
  | .fork choice => (∀ fields ∈ choice.scheme, Expr.PlainFields fields) ∧ Fork.PlainBranches choice
  | .input result choice =>
    isSymbol result = true ∧ choice.scheme = none ∧ Fork.PlainBranches choice
  | .await condition body => condition.Plain ∧ Statement.PlainEach body
  | .once body => Statement.PlainEach body
  | .perform _ value => value.Plain
  | .set target value => target.Plain ∧ value.Plain
  | .run name args result none =>
    name.Plain ∧ Expr.PlainEach args ∧ ∀ x ∈ result, isSymbol x = true
  | .run name args result (some choice) =>
    name.Plain ∧ Expr.PlainEach args ∧ (∃ x, result = some x ∧ isSymbol x = true) ∧
      choice.scheme = none ∧ Fork.PlainBranches choice
  | .use name imports => name.IsString ∧ imports ≠ [] ∧ ∀ value ∈ imports, value.IsImport
  | .define name params body =>
    isSymbol name = true ∧ (∀ x ∈ params, isSymbol x = true) ∧ Statement.PlainEach body

/-- A fork whose branches can be written. -/
def Fork.PlainBranches : Fork Statement → Prop
  | ⟨_, branches⟩ => Branch.PlainEach branches

/-- Branches that can be written. -/
def Branch.PlainEach : List (Branch Statement) → Prop
  | [] => True
  | ⟨condition, body⟩ :: branches =>
    (∀ e ∈ condition, e.Plain) ∧ Statement.PlainEach body ∧ Branch.PlainEach branches

/-- Statements that can be written. -/
def Statement.PlainEach : List Statement → Prop
  | [] => True
  | statement :: statements => statement.Plain ∧ Statement.PlainEach statements

end

/-- A script that can be written. -/
def Script.Plain (script : Script) : Prop := Statement.PlainEach script

end Dialogue
