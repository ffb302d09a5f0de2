import Dialogue.Reader.Statement
import Dialogue.Text.Position

/-!
# Located reports of faults

A `Diagnostic` says what is wrong with a source text and where: it has the wording of a fault,
its position, and the line around it without leading blanks.
-/

namespace Dialogue

open Text (Position byteLength splitAtByte? lineAround skipBlanks)

/-- A fault of a source text, with its place. -/
structure Diagnostic where
  code : FaultCode
  message : String
  position : Position
  snippet : String
  deriving DecidableEq, Repr

namespace Diagnostic

/-- The diagnostic for the place between two parts of a source text. -/
def between (code : FaultCode) (message : String) (before rest : List Char) : Diagnostic where
  code := code
  message := message
  position := .after before
  snippet := String.ofList (skipBlanks (lineAround before rest))

/-- The diagnostic for an offset in bytes, which is reported as given even past the end of the
text; an offset inside a character has none. -/
def at? (code : FaultCode) (message : String) (source : List Char) (offset : Nat) :
    Option Diagnostic :=
  (splitAtByte? offset source).map fun parts =>
    let found := between code message parts.1 parts.2
    { found with position := { found.position with offset := offset } }

/-- The diagnostic for a fault that was found in a source text. -/
def ofFault (source : List Char) (fault : Fault) : Diagnostic :=
  between fault.cause.code fault.cause.message
    (source.take (source.length - fault.rest.length)) fault.rest

/-- The offset of a place in a source has the diagnostic for that place. -/
theorem at?_byteLength (code : FaultCode) (message : String) (before rest : List Char) :
    at? code message (before ++ rest) (byteLength before) =
      some (between code message before rest) := by
  rw [at?, Text.splitAtByte?_byteLength]
  rfl

/-- The diagnostic for a fault is the one for the place where the remaining text starts. -/
theorem ofFault_append (before : List Char) (fault : Fault) :
    ofFault (before ++ fault.rest) fault =
      between fault.cause.code fault.cause.message before fault.rest := by
  rw [ofFault, List.length_append, Nat.add_sub_cancel, List.take_left]

/-- A diagnostic as text: the wording, and the line on a line of its own. -/
def display (d : Diagnostic) : String :=
  d.message ++ "\n  Line " ++ toString d.position.line ++ ": " ++ d.snippet

end Diagnostic

/-- Reads a source text. -/
def Script.read (source : String) : Except Diagnostic Script :=
  (Reader.script source.toList).mapError (Diagnostic.ofFault source.toList)

end Dialogue
