import Dialogue.Diagnostic
import Dialogue.Lowering.Statement

/-!
# Compiling, and how failures are reported

`compile` takes a source text to a program for the runtime. A failure is a diagnostic of the
text or a problem of the script; it is reported as text or as a JSON object.
-/

namespace Dialogue

/-- Why a source text has no program. -/
inductive Failure where
  | reading (diagnostic : Diagnostic)
  | lowering (problem : Problem)

namespace Failure

/-- The name of the kind of a failure. -/
def code : Failure → String
  | .reading diagnostic => diagnostic.code.text
  | .lowering problem => problem.code.text

/-- The wording of a failure. -/
def message : Failure → String
  | .reading diagnostic => diagnostic.message
  | .lowering problem => problem.message

/-- A failure as text. -/
def display : Failure → String
  | .reading diagnostic => diagnostic.display
  | .lowering problem => problem.display

/-- A failure as a JSON object; a problem of lowering has no place in the text. -/
def toJson : Failure → Json
  | .reading diagnostic =>
    .object [("code", .string diagnostic.code.text), ("message", .string diagnostic.message),
      ("line", .integer diagnostic.position.line), ("column", .integer diagnostic.position.column),
      ("snippet", .string diagnostic.snippet)]
  | .lowering problem =>
    .object [("code", .string problem.code.text), ("message", .string problem.message),
      ("line", .null), ("column", .null)]

end Failure

/-- The program for the runtime that a source text stands for. -/
def compile (source : String) : Except Failure Json := do
  let script ← (Script.read source).mapError Failure.reading
  let program ← script.lower.mapError Failure.lowering
  .ok program.simplify

/-- A script that is read and lowered has the simplified program. -/
theorem compile_of_lower {source : String} {script : Script} {program : Json}
    (hread : Script.read source = .ok script) (hlower : script.lower = .ok program) :
    compile source = .ok program.simplify := by
  rw [compile, hread]
  change (script.lower.mapError Failure.lowering).bind (fun program => .ok program.simplify) = _
  rw [hlower]
  rfl

end Dialogue
