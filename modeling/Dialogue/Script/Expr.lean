import Dialogue.Number.Double

/-!
# Expressions of a script

Expressions are built from names, literals, lists, objects, calls, indexing and operators. A
`spread` is never written in a script: it is a list whose elements join the list around it.
-/

namespace Dialogue

/-- A binary operator. -/
inductive Operator where
  | or | and
  | is | isIn
  | le | ge | eq | lt | gt | ne
  | concat | add | sub | mod
  | mul | div
  deriving DecidableEq, Repr

namespace Operator

/-- How an operator is written in a script. -/
def text : Operator → String
  | .or => "||"
  | .and => "&&"
  | .is => "is"
  | .isIn => "in"
  | .le => "<="
  | .ge => ">="
  | .eq => "=="
  | .lt => "<"
  | .gt => ">"
  | .ne => "!="
  | .concat => "++"
  | .add => "+"
  | .sub => "-"
  | .mod => "%"
  | .mul => "*"
  | .div => "/"

/-- Whether an operator is written as a word, which a blank has to follow. -/
def isWord : Operator → Bool
  | .is | .isIn => true
  | _ => false

/-- The operators by precedence, the loosest level first. Within a level, an operator stands
before those that its text begins with. -/
def levels : List (List Operator) :=
  [[.or], [.and], [.is, .isIn], [.le, .ge, .eq, .lt, .gt, .ne], [.concat, .add, .sub, .mod],
   [.mul, .div]]

end Operator

/-- A constant. -/
inductive Literal where
  | string (value : String)
  | number (value : Double)
  | boolean (value : Bool)
  deriving DecidableEq

/-- An expression. The fields of an object keep their order and may repeat a key. -/
inductive Expr where
  | binary (op : Operator) (left right : Expr)
  | not (operand : Expr)
  | call (callee : Expr) (args : List Expr)
  | member (target property : Expr)
  | name (name : String)
  | literal (value : Literal)
  | array (elements : List Expr)
  | object (fields : List (String × Expr))
  | spread (elements : List Expr)

namespace Expr

/-- Whether an expression is a given name. -/
def isName (expected : String) : Expr → Bool
  | .name actual => actual = expected
  | _ => false

theorem isName_eq_true_iff {e : Expr} {x : String} : e.isName x = true ↔ e = .name x := by
  cases e with
  | name y => simp [isName]
  | _ => simp [isName]

/-- Splits a chain of indexing, followed by given keys, into its root and all keys, in the order
in which they are written. -/
def unindexBefore (keys : List Expr) : Expr → Expr × List Expr
  | .member target property => target.unindexBefore (property :: keys)
  | e => (e, keys)

/-- Splits a chain of indexing into its root and its keys. -/
def unindex (e : Expr) : Expr × List Expr := e.unindexBefore []

end Expr

end Dialogue
