import Dialogue.Preference

/-!
# Lowering expressions

The runtime takes an expression as JSON. A bare string is a name and a string in backticks is
text; an array is an operation with its operands, and the empty operation makes a list. Lowering
is defined on the tree alone; operands are lowered in a fixed order, and the first problem wins.
-/

namespace Dialogue

/-- Text between backticks, which tells it from a name. -/
def quoted (text : String) : String := "`" ++ text ++ "`"

/-! ## Constants -/

/-- A number as JSON: integers below `2 ^ 53` in magnitude are written as integers, and a number
that is not finite is null. -/
def Double.lower : Double → Json
  | .nan => .null
  | .infinite _ => .null
  | .finite x =>
    match x.toInt? with
    | some n => if n.natAbs < 2 ^ (53 : Nat) then .integer n else .real x
    | none => .real x

/-- A literal as JSON. -/
def Literal.lower : Literal → Json
  | .string s => .string (quoted s)
  | .number v => v.lower
  | .boolean b => .bool b

/-- A name as JSON; `null` is not a variable. -/
def lowerName (name : String) : Json := if name = "null" then .null else .string name

/-- The symbol of an operator for the runtime. -/
def Operator.symbol : Operator → String
  | .is => Operator.eq.text
  | op => op.text

/-- A list as JSON. -/
def Json.list (elements : List Json) : Json := .array (.string "" :: elements)

namespace Preference

/-- An object of literals as JSON, in which the last value of a key wins. -/
def Fields.lower (fields : Fields) : Json :=
  let add (members : List (String × Json)) (field : String × Literal) :=
    Json.insert (quoted field.1) field.2.lower members
  .object (fields.foldl add [])

/-- The pairs of an expansion as JSON. -/
def Expansion.pairs : Expansion → List Json
  | .pair base nudged => [.list [base.lower, nudged.lower]]
  | .spread base up down => [.list [base.lower, up.lower], .list [base.lower, down.lower]]

/-- An expansion as JSON, outside a list: a single pair, or an array of two. -/
def Expansion.lower : Expansion → Json
  | .pair base nudged => .list [base.lower, nudged.lower]
  | .spread base up down => .array (Expansion.spread base up down).pairs

end Preference

/-! ## Expressions -/

mutual

/-- An expression as JSON. -/
def Expr.lower : Expr → Except Problem Json
  | .binary op left right => do
    let left ← left.lower
    let right ← right.lower
    .ok (.array [.string op.symbol, left, right])
  | .not operand => do
    let operand ← operand.lower
    .ok (.array [.string "!", operand])
  | .call callee args =>
    if callee.isName "exists" then Expr.lowerExists args
    else if callee.isName Preference.callName then do
      let expansion ← Preference.expand args
      .ok expansion.lower
    else do
      let callee ← callee.lower
      let args ← Expr.lowerEach args
      .ok (.array (callee :: args))
  | .member target property => do
    let property ← property.lower
    let target ← target.lower
    .ok (.array [.string "get", property, target])
  | .name x => .ok (lowerName x)
  | .literal value => .ok value.lower
  | .array elements => do
    let elements ← Expr.lowerElements elements
    .ok (.list elements)
  | .object fields => do
    let members ← Expr.lowerFields [] fields
    .ok (.object members)
  | .spread elements => do
    let elements ← Expr.lowerEach elements
    .ok (.array elements)

/-- The test whether something exists as JSON; only the first argument counts. -/
def Expr.lowerExists : List Expr → Except Problem Json
  | [] => .error .existsWithoutArgument
  | e :: _ => do
    let value ← e.lower
    .ok (.array [.string "?", value])

/-- Each of a list of expressions as JSON. -/
def Expr.lowerEach : List Expr → Except Problem (List Json)
  | [] => .ok []
  | e :: es => do
    let value ← e.lower
    let values ← Expr.lowerEach es
    .ok (value :: values)

/-- The elements of a list as JSON, where spreads and the pairs of preferences join the list. -/
def Expr.lowerElements : List Expr → Except Problem (List Json)
  | [] => .ok []
  | .spread elements :: es => do
    let values ← Expr.lowerEach elements
    let others ← Expr.lowerElements es
    .ok (values ++ others)
  | e :: es => do
    match ← Preference.expandCall? e with
    | some expansion => do
      let others ← Expr.lowerElements es
      .ok (expansion.pairs ++ others)
    | none => do
      let value ← e.lower
      let others ← Expr.lowerElements es
      .ok (value :: others)

/-- The members that the fields of an object add to given ones; the last value of a key wins. -/
def Expr.lowerFields (members : List (String × Json)) :
    List (String × Expr) → Except Problem (List (String × Json))
  | [] => .ok members
  | (key, e) :: fields => do
    let value ← e.lower
    Expr.lowerFields (Json.insert (quoted key) value members) fields

end

/-- The elements of a list as one JSON list. -/
def Expr.lowerList (elements : List Expr) : Except Problem Json := do
  let values ← Expr.lowerElements elements
  .ok (.list values)

end Dialogue
