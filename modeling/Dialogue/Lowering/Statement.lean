import Dialogue.Lowering.Expression
import Dialogue.Script.Rename

/-!
# Lowering statements

The runtime gives received input and returned values under two reserved names. So inside the
branches of an `input`, or of a `run` that has branches, every identifier with the name of the
result becomes the reserved name. Lowering carries these renamings down as a *scope*, a function
on names, and applies it to each name and expression that it reaches.
-/

namespace Dialogue

/-- What identifiers have become: a function from the names of a script to names of the
runtime. -/
abbrev Scope := String → String

namespace Scope

/-- The name under which the runtime gives received input. -/
def inputName : String := "_nlu"

/-- The name under which the runtime gives a returned value. -/
def returnName : String := "_return"

/-- The scope in which all that has become one name becomes a reserved one. -/
def bind (scope : Scope) (current reserved : String) : Scope := fun x =>
  renamed current reserved (scope x)

end Scope

/-- A member of an object, if there is a value for it. -/
def optionalMember (key : String) : Option Json → List (String × Json)
  | none => []
  | some value => [(key, value)]

/-- A block as JSON, with further members. -/
def Json.block (statements : List Json) (members : List (String × Json)) : Json :=
  .object (("@do", .array statements) :: members)

/-- A fork as JSON, with further members. -/
def Json.fork (branches : List Json) (members : List (String × Json)) : Json :=
  .object (("@fork", .array branches) :: members)

/-- An expression as JSON, in a scope. -/
def Expr.lowerIn (scope : Scope) (e : Expr) : Except Problem Json := (e.mapNames scope).lower

/-- An optional expression as JSON, in a scope. -/
def Expr.lowerOptionIn (scope : Scope) : Option Expr → Except Problem (Option Json)
  | none => .ok none
  | some e => do
    let value ← e.lowerIn scope
    .ok (some value)

/-- The data of a fork as JSON, in a scope. -/
def Expr.lowerSchemeIn (scope : Scope) :
    Option (List (String × Expr)) → Except Problem (Option Json)
  | none => .ok none
  | some fields => do
    let value ← (Expr.object fields).lowerIn scope
    .ok (some value)

/-! ## Assignments -/

/-- A target in a list of targets, which has to be a name. -/
def Expr.lowerTarget : Expr → Except Problem Json
  | .name x => .ok (.string (quoted x))
  | e => do
    let value ← e.lower
    .error (.assignedValue value)

/-- A list of targets. -/
def Expr.lowerTargets : List Expr → Except Problem (List Json)
  | [] => .ok []
  | e :: es => do
    let target ← e.lowerTarget
    let targets ← Expr.lowerTargets es
    .ok (target :: targets)

/-- The targets of an assignment as JSON: a single one stands alone. -/
def Json.targets : List Json → Json
  | [target] => target
  | targets => .array targets

/-- What is assigned to and what is assigned. An edit assigns to its root the root's value with
one place changed. -/
def Target.lower (value : Expr) : Target → Except Problem (Json × Json)
  | .name x => do
    let value ← value.lower
    .ok (.string (quoted x), value)
  | .list elements => do
    let targets ← Expr.lowerTargets elements
    let value ← value.lower
    .ok (.targets targets, value)
  | .edit root keys => do
    match ← root.lower with
    | .string x => do
      let value ← value.lower
      let keys ← Expr.lowerEach keys
      .ok (.string (quoted x), .array (.string (quoted "edit") :: .string x :: value :: keys))
    | other => .error (.editedValue other)

/-- An assignment as JSON. -/
def Target.lowerAssignment (target : Target) (value : Expr) : Except Problem Json := do
  let (target, value) ← target.lower value
  .ok (.object [("@set", target), ("val", value)])

/-! ## Statements -/

/-- How the runtime is told a verb. -/
def Verb.tag (verb : Verb) : String := "@" ++ verb.text

/-- The start of another program as JSON, in a scope. -/
def Expr.lowerCallIn (scope : Scope) (name : Expr) (args : List Expr) : Except Problem Json := do
  let name ← name.lowerIn scope
  let args ← Expr.lowerList (Expr.mapNamesOfList scope args)
  .ok (.object [("@run", name), ("args", args)])

/-- The fork that assigns a returned value to a name. -/
def Json.assignReturn (name : String) : Json :=
  .fork [.block [.object [("@set", .string (quoted name)), ("val", .string Scope.returnName)]] []]
    [("await", .array [.string "return"])]

mutual

/-- A statement as JSON, in a scope. -/
def Statement.lower (scope : Scope) : Statement → Except Problem Json
  | .fork choice => Fork.lower scope [] choice
  | .input result choice =>
    Fork.lower (scope.bind (scope result) Scope.inputName)
      [("await", .array [.string "input"])] choice
  | .await condition body => do
    let statements ← Statement.lowerEach scope body
    let condition ← condition.lowerIn scope
    .ok (.block statements [("await", condition)])
  | .once body => do
    let statements ← Statement.lowerEach scope body
    .ok (.block statements [("once", .bool true)])
  | .perform verb value => do
    let value ← value.lowerIn scope
    .ok (.object [(verb.tag, value)])
  | .set target value => (target.mapNames scope).lowerAssignment (value.mapNames scope)
  | .run name args none _ => do
    let call ← name.lowerCallIn scope args
    .ok (.block [call] [])
  | .run name args (some result) none => do
    let call ← name.lowerCallIn scope args
    .ok (.block [call, .assignReturn (scope result)] [])
  | .run name args (some result) (some choice) => do
    let call ← name.lowerCallIn scope args
    let handler ← Fork.lower (scope.bind (scope result) Scope.returnName)
      [("await", .array [.string "return"])] choice
    .ok (.block [call, handler] [])
  | .use name imports => do
    let name ← name.lowerIn scope
    .ok (.object [("@use", name), ("import", .array (imports.map Literal.lower))])
  | .define name params body => do
    let statements ← Statement.lowerEach scope body
    .ok (.object [("@def", .array ((name :: params).map fun x => .string (quoted (scope x)))),
      ("val", .block statements [])])

/-- A fork as JSON, in a scope and with further members. The bodies of branches come before their
conditions, and all branches before the data of the fork. -/
def Fork.lower (scope : Scope) (members : List (String × Json)) :
    Fork Statement → Except Problem Json
  | ⟨scheme, branches⟩ => do
    let branches ← Branch.lowerEach scope branches
    let scheme ← Expr.lowerSchemeIn scope scheme
    .ok (.fork branches (optionalMember "scheme" scheme ++ members))

/-- Each of a list of branches as JSON, in a scope. -/
def Branch.lowerEach (scope : Scope) : List (Branch Statement) → Except Problem (List Json)
  | [] => .ok []
  | ⟨condition, body⟩ :: branches => do
    let statements ← Statement.lowerEach scope body
    let condition ← Expr.lowerOptionIn scope condition
    let others ← Branch.lowerEach scope branches
    .ok (.block statements (optionalMember "if" condition) :: others)

/-- Each of a list of statements as JSON, in a scope. -/
def Statement.lowerEach (scope : Scope) : List Statement → Except Problem (List Json)
  | [] => .ok []
  | statement :: statements => do
    let first ← statement.lower scope
    let others ← Statement.lowerEach scope statements
    .ok (first :: others)

end

/-! ## Scripts -/

/-- A script as JSON. -/
def Script.lower (script : Script) : Except Problem Json := do
  let statements ← Statement.lowerEach id script
  .ok (.block statements [])

/-- The fork that a program is when it is a block of one fork and nothing more. -/
def Json.singleFork? : Json → Option Json
  | .object [(key, .array [statement])] =>
    if key = "@do" ∧ (statement.member? "@fork").isSome then some statement else none
  | _ => none

/-- Takes a program that is a block of one fork to that fork, and any other program to itself. -/
def Json.simplify (program : Json) : Json := program.singleFork?.getD program

end Dialogue
