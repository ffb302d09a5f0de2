import Dialogue.Script.Statement

/-!
# Nodes of a script

`nodes` lists the parts of a tree in depth-first order, each part before the parts inside it.
Names of object fields and of imports are labels, not identifiers.
-/

namespace Dialogue

/-- A part of a script. -/
inductive Node where
  | list (statements : List Statement)
  | statement (statement : Statement)
  | fork (fork : Fork Statement)
  | branch (branch : Branch Statement)
  | expression (expression : Expr)
  | identifier (name : String)
  | literal (value : Literal)

/-- The name of a node that is an identifier. -/
def Node.identifier? : Node → Option String
  | .identifier name => some name
  | _ => none

/-! ## Expressions -/

mutual

/-- The nodes of an expression. -/
def Expr.nodes : Expr → List Node
  | .binary op left right => .expression (.binary op left right) :: (left.nodes ++ right.nodes)
  | .not operand => .expression (.not operand) :: operand.nodes
  | .call callee args => .expression (.call callee args) :: (callee.nodes ++ Expr.nodesOfList args)
  | .member target property =>
    .expression (.member target property) :: (target.nodes ++ property.nodes)
  | .name x => [.expression (.name x), .identifier x]
  | .literal value => [.expression (.literal value), .literal value]
  | .array elements => .expression (.array elements) :: Expr.nodesOfList elements
  | .object fields => .expression (.object fields) :: Expr.nodesOfFields fields
  | .spread elements => .expression (.spread elements) :: Expr.nodesOfList elements

/-- The nodes of a list of expressions. -/
def Expr.nodesOfList : List Expr → List Node
  | [] => []
  | e :: es => e.nodes ++ Expr.nodesOfList es

/-- The nodes of the values of an object. -/
def Expr.nodesOfFields : List (String × Expr) → List Node
  | [] => []
  | (_, e) :: fields => e.nodes ++ Expr.nodesOfFields fields

end

/-- The nodes of the target of an assignment. -/
def Target.nodes : Target → List Node
  | .name x => [.identifier x]
  | .list elements => Expr.nodesOfList elements
  | .edit root keys => root.nodes ++ Expr.nodesOfList keys

/-- The nodes of an optional expression. -/
def Expr.nodesOfOption : Option Expr → List Node
  | none => []
  | some e => e.nodes

/-- The nodes of the data of a fork. -/
def Expr.nodesOfScheme : Option (List (String × Expr)) → List Node
  | none => []
  | some fields => Expr.nodesOfFields fields

/-! ## Statements -/

mutual

/-- The nodes of a statement. -/
def Statement.nodes : Statement → List Node
  | .fork choice => .statement (.fork choice) :: Fork.nodes choice
  | .input result choice =>
    .statement (.input result choice) :: .identifier result :: Fork.nodes choice
  | .await condition body =>
    .statement (.await condition body) ::
      (condition.nodes ++ .list body :: Statement.nodesOfList body)
  | .once body => .statement (.once body) :: .list body :: Statement.nodesOfList body
  | .perform verb value => .statement (.perform verb value) :: value.nodes
  | .set target value => .statement (.set target value) :: (target.nodes ++ value.nodes)
  | .run name args result none =>
    .statement (.run name args result none) ::
      (name.nodes ++ Expr.nodesOfList args ++ result.toList.map Node.identifier)
  | .run name args result (some choice) =>
    .statement (.run name args result (some choice)) ::
      (name.nodes ++ Expr.nodesOfList args ++ result.toList.map Node.identifier ++
        Fork.nodes choice)
  | .use name imports => .statement (.use name imports) :: (name.nodes ++ imports.map Node.literal)
  | .define name params body =>
    .statement (.define name params body) :: .identifier name ::
      (params.map Node.identifier ++ .list body :: Statement.nodesOfList body)

/-- The nodes of a fork. -/
def Fork.nodes : Fork Statement → List Node
  | ⟨scheme, branches⟩ =>
    .fork ⟨scheme, branches⟩ :: (Expr.nodesOfScheme scheme ++ Branch.nodesOfList branches)

/-- The nodes of a list of branches. -/
def Branch.nodesOfList : List (Branch Statement) → List Node
  | [] => []
  | ⟨condition, body⟩ :: branches =>
    .branch ⟨condition, body⟩ ::
      (Expr.nodesOfOption condition ++ .list body :: Statement.nodesOfList body) ++
      Branch.nodesOfList branches

/-- The nodes of the statements of a list. -/
def Statement.nodesOfList : List Statement → List Node
  | [] => []
  | statement :: statements => statement.nodes ++ Statement.nodesOfList statements

end

/-- The nodes of a script. -/
def Script.nodes (script : Script) : List Node := .list script :: Statement.nodesOfList script

/-- The names of the identifiers in a fork, in the order of its nodes. -/
def Fork.identifiers (fork : Fork Statement) : List String :=
  (Fork.nodes fork).filterMap Node.identifier?

end Dialogue
