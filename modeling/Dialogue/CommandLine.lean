import Dialogue.CommandLine.Folder
import Dialogue.Failure
import Dialogue.Text.Position

/-!
# The command line

`dmpl [--compact] [--json-errors] [FILE]` compiles a file, or the standard input if no file is
given, and prints the program as JSON. All of it but reading and printing is here: what the
arguments ask for, and what a run prints. `run?` describes a whole run as a function of its
arguments, its folder and its standard input.
-/

namespace Dialogue.CommandLine

open Text (lineNumber)

/-! ## Arguments -/

/-- How to compile and report. -/
structure Options where
  path : Option String := none
  compact : Bool := false
  jsonErrors : Bool := false
  deriving DecidableEq, Repr

/-- What the arguments ask for. -/
inductive Command where
  | version
  | compile (options : Options)
  deriving DecidableEq, Repr

/-- Takes a file name, of which there may be one. -/
def Options.withPath? (options : Options) (path : String) : Option Options :=
  if options.path.isSome then none else some { options with path := some path }

/-- The options after arguments that are all file names. -/
def Options.withPaths? (options : Options) : List String → Option Options
  | [] => some options
  | path :: paths => do (← options.withPath? path).withPaths? paths

/-- Whether an argument is written like an option. -/
def isOption (arg : String) : Bool :=
  match arg.toList with
  | '-' :: _ :: _ => true
  | _ => false

/-- What arguments ask for, given the options so far; nothing if they cannot be understood. -/
def Command.parseFrom? (options : Options) : List String → Option Command
  | [] => some (.compile options)
  | arg :: args =>
    if arg = "--version" ∨ arg = "-V" then some .version
    else if arg = "--" then (options.withPaths? args).map .compile
    else if arg = "--compact" then
      if options.compact then none else parseFrom? { options with compact := true } args
    else if arg = "--json-errors" then
      if options.jsonErrors then none else parseFrom? { options with jsonErrors := true } args
    else if isOption arg then none
    else
      match options.withPath? arg with
      | some options => parseFrom? options args
      | none => none

/-- What arguments ask for. -/
def Command.parse? (args : List String) : Option Command := Command.parseFrom? {} args

/-! ## Output -/

/-- What a run prints, and the status it ends with. -/
structure Outcome where
  status : Nat
  output : String
  errors : String
  deriving DecidableEq, Repr

/-- A failure for people: the line of a fault with a mark under the place, or the problem. -/
def report (source : String) : Failure → String
  | .reading diagnostic =>
    "ERROR AT LINE " ++ toString diagnostic.position.line ++ ":\n" ++
      String.ofList (lineNumber source.toList diagnostic.position.line) ++ "\n" ++
      String.ofList (List.replicate diagnostic.position.column ' ') ++ "^\n" ++
      diagnostic.message ++ "\n"
  | .lowering problem => "ERROR: " ++ problem.display ++ "\n"

/-- What compiling a source text prints. -/
def compileOutcome (options : Options) (source : String) : Outcome :=
  match compile source with
  | .ok program =>
    ⟨0, (if options.compact then program.compact else program.indented) ++ "\n", ""⟩
  | .error failure =>
    if options.jsonErrors then ⟨1, failure.toJson.compact ++ "\n", ""⟩
    else ⟨1, "", report source failure⟩

/-- What a run prints when its input cannot be read. -/
def unreadableOutcome (options : Options) (problem : InputProblem) : Outcome :=
  ⟨1, "", "Error: failed to read " ++ options.path.getD "stdin" ++ "\n\nCaused by:\n    " ++
    problem.message ++ "\n"⟩

/-- What a run prints, given its input. -/
def outcome (options : Options) : Except InputProblem String → Outcome
  | .ok source => compileOutcome options source
  | .error problem => unreadableOutcome options problem

/-- What `--version` prints. -/
def versionOutcome : Outcome := ⟨0, "dmpl 0.0.2\n", ""⟩

/-- A whole run, given the folder it starts in and the bytes of its standard input; nothing if
the arguments cannot be understood. -/
def run? (folder : Folder) (standardInput : ByteArray) (args : List String) : Option Outcome :=
  (Command.parse? args).map fun
    | .version => versionOutcome
    | .compile options =>
      outcome options (match options.path with
        | some path => folder.read path
        | none => decode standardInput)

end Dialogue.CommandLine
