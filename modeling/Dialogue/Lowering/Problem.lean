import Dialogue.Json.Value

/-!
# Problems of lowering

Why a script that can be read has no program for the runtime.
-/

namespace Dialogue

/-- A reason why a script cannot be lowered. -/
inductive Problem where
  | existsWithoutArgument
  | preferenceWithoutObject
  | preferenceArgumentCount (count : Nat)
  | preferenceNameNotString
  | preferenceNamesNotList
  | preferenceValueNotConstant
  /-- The root of an indexed assignment is not a name; it lowers to the given value. -/
  | editedValue (value : Json)
  /-- A target of an assignment is not a name; it lowers to the given value. -/
  | assignedValue (value : Json)

/-- The kinds of problems that reports tell apart. -/
inductive ProblemCode where
  | malformedNode
  | unsupportedTarget
  | typeError
  deriving DecidableEq, Repr

namespace ProblemCode

/-- The name of a kind of problem in reports. -/
def text : ProblemCode → String
  | .malformedNode => "dmpl-compile-malformed-node"
  | .unsupportedTarget => "dmpl-compile-unsupported-target"
  | .typeError => "dmpl-compile-type-error"

/-- How a problem of a kind is introduced when it is shown. -/
def title : ProblemCode → String
  | .malformedNode => "Invalid node"
  | .unsupportedTarget => "Unsupported assignment target"
  | .typeError => "TypeError"

end ProblemCode

namespace Problem

/-- The kind of a problem. -/
def code : Problem → ProblemCode
  | .existsWithoutArgument => .malformedNode
  | .preferenceWithoutObject => .malformedNode
  | .preferenceArgumentCount _ => .malformedNode
  | .preferenceNameNotString => .typeError
  | .preferenceNamesNotList => .typeError
  | .preferenceValueNotConstant => .typeError
  | .editedValue _ => .unsupportedTarget
  | .assignedValue _ => .unsupportedTarget

/-- The wording of a problem. -/
def message : Problem → String
  | .existsWithoutArgument => "exists expects one argument"
  | .preferenceWithoutObject => "pref expects an object literal as its first argument"
  | .preferenceArgumentCount count =>
    "pref takes at most two arguments, got " ++ toString count
  | .preferenceNameNotString => "pref array must only contain strings"
  | .preferenceNamesNotList => "pref expects an array of field names as its second argument"
  | .preferenceValueNotConstant =>
    "pref must be passed an object with static true/false values or numbers"
  | .editedValue value =>
    "indexed assignment must start from a variable name, got " ++ value.compact
  | .assignedValue value => "cannot assign to " ++ value.compact

/-- A problem as text. -/
def display (problem : Problem) : String := problem.code.title ++ ": " ++ problem.message

end Problem

end Dialogue
