import Dialogue.Text.Character

/-!
# Faults of reading

Reading a script is a function of the text that remains. It gives a value together with the text
after it, or a `Fault`: a cause, and the text that remained where the cause was found. Nothing
else is kept of a place; how it is reported is decided once the whole text is at hand.
-/

namespace Dialogue

/-- The kinds of faults that reports tell apart. -/
inductive FaultCode where
  | mismatch
  | ifInCondition
  deriving DecidableEq, Repr

/-- The name of a kind of fault in reports. -/
def FaultCode.text : FaultCode → String
  | .mismatch => "dmpl-parse-syntax-error"
  | .ifInCondition => "dmpl-parse-if-in-condition"

/-- Why a text is not a script. -/
inductive Cause where
  /-- A character where the script should have ended. -/
  | unexpected (c : Char)
  /-- Something other than a fixed text. -/
  | expected (text : String)
  /-- Something other than a fixed word. -/
  | expectedWord (word : String)
  /-- No blank where one has to be. -/
  | expectedBlank (after : String)
  | expectedForkAfterScheme
  | expectedBlockAfterElse
  | expectedBlockAfterDefault
  | expectedModuleName
  | expectedIdentifier
  | expectedExpression
  | expectedNumber
  | invalidNumber (text : String)
  | unterminatedString
  | invalidEscape
  /-- A condition of a branch that starts with the word `if`. -/
  | ifInCondition
  /-- The bound on nesting and repetition was reached, which exceeds the length of the text
  whenever a script is read. -/
  | exhausted
  deriving DecidableEq, Repr

namespace Cause

/-- The kind of a cause. -/
def code : Cause → FaultCode
  | .ifInCondition => .ifInCondition
  | _ => .mismatch

/-- The wording of a cause. -/
def message : Cause → String
  | .unexpected c => "Unexpected '" ++ c.toString ++ "'"
  | .expected text => "Expected '" ++ text ++ "'"
  | .expectedWord word => "Expected `" ++ word ++ "`"
  | .expectedBlank after => "Expected whitespace after `" ++ after ++ "`"
  | .expectedForkAfterScheme => "Expected `if` or `fork` after a scheme"
  | .expectedBlockAfterElse => "Expected `\x7b` or `if` after `else`"
  | .expectedBlockAfterDefault =>
    "Expected `\x7b` after `_`; a default branch takes no condition"
  | .expectedModuleName => "Expected a module name string"
  | .expectedIdentifier => "Expected an identifier"
  | .expectedExpression => "Expected an expression"
  | .expectedNumber => "Expected a number"
  | .invalidNumber text => "Invalid number: " ++ text
  | .unterminatedString => "Unterminated string"
  | .invalidEscape => "Invalid unicode escape"
  | .ifInCondition => "conditions do not need an `if`, remove it"
  | .exhausted => "Nested too deeply"

end Cause

/-- A cause and the text that remained where it was found. -/
structure Fault where
  cause : Cause
  rest : List Char
  deriving DecidableEq, Repr

/-- A function that reads a value at the front of a text, and gives it with the text after it. -/
abbrev Reader (α : Type) := List Char → Except Fault (α × List Char)

/-- Reports a cause at the front of a text. -/
def Reader.fault {α : Type} (cause : Cause) (rest : List Char) : Except Fault α :=
  .error ⟨cause, rest⟩

end Dialogue
