/-!
# The input of a run

A run reads one text, from a file or from the standard input. It starts in a folder with some files.
A path leads from there, name by name, to a file or to a folder. Of the folders above nothing is
known but that they are folders. The wording of what can go wrong is that of the operating system.
-/

namespace Dialogue.CommandLine

/-! ## Problems -/

/-- Why the input could not be read. -/
inductive InputProblem where
  | missing
  | notFolder
  | isFolder
  | nameTooLong
  | notUnicode
  deriving DecidableEq, Repr

/-- The wording of a problem with the input. -/
def InputProblem.message : InputProblem → String
  | .missing => "No such file or directory (os error 2)"
  | .notFolder => "Not a directory (os error 20)"
  | .isFolder => "Is a directory (os error 21)"
  | .nameTooLong => "File name too long (os error 36)"
  | .notUnicode => "stream did not contain valid UTF-8"

/-- The text of bytes, which have to be UTF-8. -/
def decode (bytes : ByteArray) : Except InputProblem String :=
  match String.fromUTF8? bytes with
  | some text => .ok text
  | none => .error .notUnicode

/-! ## Paths -/

/-- A folder that holds files only. -/
structure Folder where
  files : List (String × ByteArray)

/-- Where a path has led. -/
inductive Place where
  /-- The folder of the run. -/
  | home
  /-- A folder above it. -/
  | above
  | file (content : ByteArray)

namespace Folder

/-- The longest name, in bytes. -/
def maxName : Nat := 255

/-- The longest path, in bytes. -/
def maxPath : Nat := 4095

/-- Looks up a file of a folder. -/
def find (folder : Folder) (name : String) : Except InputProblem Place :=
  match folder.files.lookup name with
  | some content => .ok (.file content)
  | none => .error .missing

/-- Follows one name of a path. An empty name, as after a final slash, asks for a folder. -/
def follow (folder : Folder) (place : Place) (name : String) : Except InputProblem Place :=
  match place with
  | .file _ => .error .notFolder
  | .home =>
    if name = "" ∨ name = "." then .ok .home
    else if name = ".." then .ok .above
    else if maxName < name.utf8ByteSize then .error .nameTooLong
    else folder.find name
  | .above =>
    if name = "" ∨ name = "." ∨ name = ".." then .ok .above
    else if maxName < name.utf8ByteSize then .error .nameTooLong
    else .error .missing

/-- Follows the names of a path. -/
def followAll (folder : Folder) : Place → List String → Except InputProblem Place
  | place, [] => .ok place
  | place, name :: names => do
    let next ← folder.follow place name
    folder.followAll next names

/-- The place that a path leads to; a path that starts with a slash starts above. -/
def locate (folder : Folder) (path : String) : Except InputProblem Place :=
  if path = "" then .error .missing
  else if maxPath < path.utf8ByteSize then .error .nameTooLong
  else folder.followAll (if path.startsWith "/" then .above else .home) (path.splitOn "/")

/-- The text of the file that a path leads to. -/
def read (folder : Folder) (path : String) : Except InputProblem String := do
  match ← folder.locate path with
  | .file content => decode content
  | _ => .error .isFolder

end Folder

end Dialogue.CommandLine
