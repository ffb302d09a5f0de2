import Dialogue.Script.Statement

/-!
# Bounded substitution

Walks a tree in the order of its nodes and replaces names by a given expression while a limit
lasts. The walk goes on inside each replacement, so a replacement that holds the name again is
replaced in its turn; the limit makes the walk end. Along with the new tree, the walk gives the
number of nodes it has visited and what is left of the limit.
-/

namespace Dialogue

/-- What a walk keeps track of: the replacements it may still do and the nodes it has visited. -/
structure Tally where
  left : Nat
  visited : Nat
  deriving DecidableEq, Repr

/-- A walk that gives a result and keeps a tally. -/
abbrev Walk (α : Type) := StateM Tally α

/-- Counts visited nodes. -/
def Walk.count (nodes : Nat) : Walk Unit :=
  modify fun tally => { tally with visited := tally.visited + nodes }

/-! ## Expressions -/

mutual

/-- Walks an expression. Each occurrence of the name, while the limit lasts, gives way to what
`enter` makes. -/
def Expr.substituteWith (name : String) (enter : Walk Expr) : Expr → Walk Expr
  | .binary op left right => do
    Walk.count 1
    let left ← left.substituteWith name enter
    let right ← right.substituteWith name enter
    pure (.binary op left right)
  | .not operand => do
    Walk.count 1
    let operand ← operand.substituteWith name enter
    pure (.not operand)
  | .call callee args => do
    Walk.count 1
    let callee ← callee.substituteWith name enter
    let args ← Expr.substituteWithOfList name enter args
    pure (.call callee args)
  | .member target property => do
    Walk.count 1
    let target ← target.substituteWith name enter
    let property ← property.substituteWith name enter
    pure (.member target property)
  | .name x => do
    let tally ← get
    if x = name ∧ 0 < tally.left then
      set { tally with left := tally.left - 1 }
      enter
    else
      Walk.count 2
      pure (.name x)
  | .literal value => do
    Walk.count 2
    pure (.literal value)
  | .array elements => do
    Walk.count 1
    let elements ← Expr.substituteWithOfList name enter elements
    pure (.array elements)
  | .object fields => do
    Walk.count 1
    let fields ← Expr.substituteWithOfFields name enter fields
    pure (.object fields)
  | .spread elements => do
    Walk.count 1
    let elements ← Expr.substituteWithOfList name enter elements
    pure (.spread elements)

/-- Walks a list of expressions. -/
def Expr.substituteWithOfList (name : String) (enter : Walk Expr) : List Expr → Walk (List Expr)
  | [] => pure []
  | e :: es => do
    let e ← e.substituteWith name enter
    let es ← Expr.substituteWithOfList name enter es
    pure (e :: es)

/-- Walks the values of an object. -/
def Expr.substituteWithOfFields (name : String) (enter : Walk Expr) :
    List (String × Expr) → Walk (List (String × Expr))
  | [] => pure []
  | (key, e) :: fields => do
    let e ← e.substituteWith name enter
    let fields ← Expr.substituteWithOfFields name enter fields
    pure ((key, e) :: fields)

end

/-- Walks an optional expression. -/
def Expr.substituteWithOfOption (name : String) (enter : Walk Expr) :
    Option Expr → Walk (Option Expr)
  | none => pure none
  | some e => do
    let e ← e.substituteWith name enter
    pure (some e)

/-- Walks the data of a fork. -/
def Expr.substituteWithOfScheme (name : String) (enter : Walk Expr) :
    Option (List (String × Expr)) → Walk (Option (List (String × Expr)))
  | none => pure none
  | some fields => do
    let fields ← Expr.substituteWithOfFields name enter fields
    pure (some fields)

/-- Walks the target of an assignment. -/
def Target.substituteWith (name : String) (enter : Walk Expr) : Target → Walk Target
  | .name x => do
    Walk.count 1
    pure (.name x)
  | .list elements => do
    let elements ← Expr.substituteWithOfList name enter elements
    pure (.list elements)
  | .edit root keys => do
    let root ← root.substituteWith name enter
    let keys ← Expr.substituteWithOfList name enter keys
    pure (.edit root keys)

/-! ## Statements -/

mutual

/-- Walks a statement. -/
def Statement.substituteWith (name : String) (enter : Walk Expr) : Statement → Walk Statement
  | .fork choice => do
    Walk.count 1
    let choice ← Fork.substituteWith name enter choice
    pure (.fork choice)
  | .input result choice => do
    Walk.count 2
    let choice ← Fork.substituteWith name enter choice
    pure (.input result choice)
  | .await condition body => do
    Walk.count 1
    let condition ← condition.substituteWith name enter
    Walk.count 1
    let body ← Statement.substituteWithOfList name enter body
    pure (.await condition body)
  | .once body => do
    Walk.count 2
    let body ← Statement.substituteWithOfList name enter body
    pure (.once body)
  | .perform verb value => do
    Walk.count 1
    let value ← value.substituteWith name enter
    pure (.perform verb value)
  | .set target value => do
    Walk.count 1
    let target ← target.substituteWith name enter
    let value ← value.substituteWith name enter
    pure (.set target value)
  | .run program args result none => do
    Walk.count 1
    let program ← program.substituteWith name enter
    let args ← Expr.substituteWithOfList name enter args
    Walk.count result.toList.length
    pure (.run program args result none)
  | .run program args result (some choice) => do
    Walk.count 1
    let program ← program.substituteWith name enter
    let args ← Expr.substituteWithOfList name enter args
    Walk.count result.toList.length
    let choice ← Fork.substituteWith name enter choice
    pure (.run program args result (some choice))
  | .use source imports => do
    Walk.count 1
    let source ← source.substituteWith name enter
    Walk.count imports.length
    pure (.use source imports)
  | .define function params body => do
    Walk.count (3 + params.length)
    let body ← Statement.substituteWithOfList name enter body
    pure (.define function params body)

/-- Walks a fork. -/
def Fork.substituteWith (name : String) (enter : Walk Expr) :
    Fork Statement → Walk (Fork Statement)
  | ⟨scheme, branches⟩ => do
    Walk.count 1
    let scheme ← Expr.substituteWithOfScheme name enter scheme
    let branches ← Branch.substituteWithOfList name enter branches
    pure ⟨scheme, branches⟩

/-- Walks a list of branches. -/
def Branch.substituteWithOfList (name : String) (enter : Walk Expr) :
    List (Branch Statement) → Walk (List (Branch Statement))
  | [] => pure []
  | ⟨condition, body⟩ :: branches => do
    Walk.count 1
    let condition ← Expr.substituteWithOfOption name enter condition
    Walk.count 1
    let body ← Statement.substituteWithOfList name enter body
    let branches ← Branch.substituteWithOfList name enter branches
    pure (⟨condition, body⟩ :: branches)

/-- Walks the statements of a list. -/
def Statement.substituteWithOfList (name : String) (enter : Walk Expr) :
    List Statement → Walk (List Statement)
  | [] => pure []
  | statement :: statements => do
    let statement ← statement.substituteWith name enter
    let statements ← Statement.substituteWithOfList name enter statements
    pure (statement :: statements)

end

/-! ## Under a limit -/

/-- Walks the parts of a fresh replacement. The replacement itself is not looked up again, so a
bare name stays; `limit` bounds how deep replacements may nest. -/
def Expr.enterReplacement (name : String) (replacement : Expr) : Nat → Tally → Expr × Tally
  | 0, tally => (replacement, tally)
  | limit + 1, tally =>
    match replacement with
    | .name other => (.name other, { tally with visited := tally.visited + 2 })
    | other => (other.substituteWith name (Expr.enterReplacement name replacement limit)).run tally

/-- Walks a script and replaces a name under a limit. -/
def Script.substitute (name : String) (replacement : Expr) (limit : Nat) (script : Script) :
    Script × Tally :=
  let walked : Walk Script := do
    Walk.count 1
    Statement.substituteWithOfList name (Expr.enterReplacement name replacement limit) script
  walked.run ⟨limit, 0⟩

end Dialogue
