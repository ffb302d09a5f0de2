import Dialogue.CommandLine

/-!
# The program

Reads the input that the command line asks for and prints the outcome.
-/

namespace Dialogue.CommandLine

/-- The bytes of the standard input. -/
def readStandardInput : IO ByteArray := do
  (← IO.getStdin).readBinToEnd

/-- The problem that an error of the operating system stands for. -/
def problemOf : IO.Error → InputProblem
  | .inappropriateType _ code _ => if code = 21 then .isFolder else .notFolder
  | .invalidArgument .. => .nameTooLong
  | _ => .missing

/-- The text to compile: a file, or the standard input. -/
def readSource (path : Option String) : IO (Except InputProblem String) := do
  match path with
  | none => return decode (← readStandardInput)
  | some file =>
    try
      return decode (← IO.FS.readBinFile file)
    catch problem =>
      return .error (problemOf problem)

/-- Prints an outcome and gives its status. -/
def printOutcome (result : Outcome) : IO UInt32 := do
  IO.print result.output
  IO.eprint result.errors
  return result.status.toUInt32

end Dialogue.CommandLine

open Dialogue.CommandLine in
/-- The command line program. -/
def main (args : List String) : IO UInt32 := do
  match Command.parse? args with
  | none =>
    IO.eprintln "Usage: dmpl [--compact] [--json-errors] [FILE]"
    return 2
  | some .version => printOutcome versionOutcome
  | some (.compile options) => printOutcome (outcome options (← readSource options.path))
