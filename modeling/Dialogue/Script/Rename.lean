import Dialogue.Script.Node

/-!
# Renaming

`mapNames f` applies a function to every identifier of a tree: names in expressions and targets,
results, and the names and parameters of definitions. It leaves the labels alone, which are the
names of object fields and of imports. Renaming one name to another is a special case.
-/

namespace Dialogue

/-- The function that takes one name to another and fixes the rest. -/
def renamed (old new : String) (name : String) : String := if name = old then new else name

/-! ## Expressions -/

mutual

/-- Applies a function to the names of an expression. -/
def Expr.mapNames (f : String → String) : Expr → Expr
  | .binary op left right => .binary op (left.mapNames f) (right.mapNames f)
  | .not operand => .not (operand.mapNames f)
  | .call callee args => .call (callee.mapNames f) (Expr.mapNamesOfList f args)
  | .member target property => .member (target.mapNames f) (property.mapNames f)
  | .name x => .name (f x)
  | .literal value => .literal value
  | .array elements => .array (Expr.mapNamesOfList f elements)
  | .object fields => .object (Expr.mapNamesOfFields f fields)
  | .spread elements => .spread (Expr.mapNamesOfList f elements)

/-- Applies a function to the names of a list of expressions. -/
def Expr.mapNamesOfList (f : String → String) : List Expr → List Expr
  | [] => []
  | e :: es => e.mapNames f :: Expr.mapNamesOfList f es

/-- Applies a function to the names in the values of an object. -/
def Expr.mapNamesOfFields (f : String → String) : List (String × Expr) → List (String × Expr)
  | [] => []
  | (key, e) :: fields => (key, e.mapNames f) :: Expr.mapNamesOfFields f fields

end

/-- Applies a function to the names of a target. -/
def Target.mapNames (f : String → String) : Target → Target
  | .name x => .name (f x)
  | .list elements => .list (Expr.mapNamesOfList f elements)
  | .edit root keys => .edit (root.mapNames f) (Expr.mapNamesOfList f keys)

/-! ## Statements -/

mutual

/-- Applies a function to the names of a statement. -/
def Statement.mapNames (f : String → String) : Statement → Statement
  | .fork choice => .fork (Fork.mapNames f choice)
  | .input result choice => .input (f result) (Fork.mapNames f choice)
  | .await condition body => .await (condition.mapNames f) (Statement.mapNamesOfList f body)
  | .once body => .once (Statement.mapNamesOfList f body)
  | .perform verb value => .perform verb (value.mapNames f)
  | .set target value => .set (target.mapNames f) (value.mapNames f)
  | .run name args result none =>
    .run (name.mapNames f) (Expr.mapNamesOfList f args) (result.map f) none
  | .run name args result (some choice) =>
    .run (name.mapNames f) (Expr.mapNamesOfList f args) (result.map f)
      (some (Fork.mapNames f choice))
  | .use name imports => .use (name.mapNames f) imports
  | .define name params body =>
    .define (f name) (params.map f) (Statement.mapNamesOfList f body)

/-- Applies a function to the names of a fork. -/
def Fork.mapNames (f : String → String) : Fork Statement → Fork Statement
  | ⟨scheme, branches⟩ =>
    ⟨scheme.map (Expr.mapNamesOfFields f), Branch.mapNamesOfList f branches⟩

/-- Applies a function to the names of a list of branches. -/
def Branch.mapNamesOfList (f : String → String) : List (Branch Statement) → List (Branch Statement)
  | [] => []
  | ⟨condition, body⟩ :: branches =>
    ⟨condition.map (Expr.mapNames f), Statement.mapNamesOfList f body⟩ ::
      Branch.mapNamesOfList f branches

/-- Applies a function to the names of a list of statements. -/
def Statement.mapNamesOfList (f : String → String) : List Statement → List Statement
  | [] => []
  | statement :: statements => statement.mapNames f :: Statement.mapNamesOfList f statements

end

/-- Renames every identifier of one name in a fork. -/
def Fork.rename (fork : Fork Statement) (old new : String) : Fork Statement :=
  Fork.mapNames (renamed old new) fork

/-- The forks after each of a list of renamings, done one after the other. -/
def Fork.renameEach (fork : Fork Statement) : List (String × String) → List (Fork Statement)
  | [] => []
  | (old, new) :: pairs => fork.rename old new :: (fork.rename old new).renameEach pairs

end Dialogue
