import Dialogue.Diagnostic
import Dialogue.Scanner.Expression

/-!
# Scanning statements and scripts

The forms of a statement, each scanned from its first word on, and the scan of a whole source. Its
report (`Diagnostic.sliced?`) is made of slices of the source, too.
-/

namespace Dialogue

open Text (byteLength sliceTo? sliceFrom? slice? skipBlanks Position)

namespace Scanner

/-! ## Blocks and branches -/

section

variable (expr : Scanner Expr) (statement : Scanner Statement)

/-- Whether nothing comes next but the end of the source or a closing brace. -/
def closes : Scanner Bool := do
  if ← atEnd then return true else sees '}'

/-- Reads statements up to the end of the source or a closing brace, which is not read. -/
def statements : Nat → Scanner (List Statement)
  | 0 => fault .exhausted
  | n + 1 => do
    skip
    if ← closes then return []
    else
      let first ← statement
      return first :: (← statements n)

/-- Reads statements in braces. -/
def block (n : Nat) : Scanner (List Statement) := do
  expect '{'
  let body ← statements statement n
  skip
  expect '}'
  return body

/-- Whether the mark `_` of a default branch comes next. -/
def seesDefault : Scanner Bool := do
  let text ← remaining
  return text.head? == some '_' && !text[1]?.any Reader.isWordPart

/-- Reads the condition of a branch, and the gap after it. -/
def condition : Scanner (Option Expr) := do
  if ← seesDefault then
    advance 1
    skip
    if ← sees '{' then
      skip
      return none
    else fault .expectedBlockAfterDefault
  else if ← seesWord "if" then fault .ifInCondition
  else
    let found ← expr
    skip
    return some found

/-- Reads a branch: a condition and a block. -/
def branch (n : Nat) : Scanner (Branch Statement) := do
  let found ← condition expr
  let body ← block statement n
  return ⟨found, body⟩

/-- Reads branches up to the end of the source or a closing brace, which is not read. -/
def branchList (n : Nat) : Nat → Scanner (List (Branch Statement))
  | 0 => fault .exhausted
  | k + 1 => do
    skip
    if ← closes then return []
    else
      let first ← branch expr statement n
      return first :: (← branchList n k)

/-- Reads branches in braces. -/
def branches (n : Nat) : Scanner (List (Branch Statement)) := do
  expect '{'
  let found ← branchList expr statement n n
  expect '}'
  return found

/-! ## Forms of statements -/

/-- Reads the branches of an `if`: a condition and a block, and those of the `else` that may
follow. -/
def conditional (n : Nat) : Nat → Scanner (List (Branch Statement))
  | 0 => do
    expectWord "if"
    fault .exhausted
  | k + 1 => do
    expectWord "if"
    expectBlank "if"
    let found ← expr
    skip
    let body ← block statement n
    let saved ← cursor
    skip
    if ← seesWord "else" then
      advance 4
      skip
      if ← sees '{' then
        let last ← block statement n
        return [⟨some found, body⟩, ⟨none, last⟩]
      else if ← seesWord "if" then
        let others ← conditional n k
        return ⟨some found, body⟩ :: others
      else fault .expectedBlockAfterElse
    else
      moveTo saved
      return [⟨some found, body⟩]

/-- Reads the branches of a `fork`. -/
def fork (n : Nat) : Scanner (List (Branch Statement)) := do
  expectWord "fork"
  skip
  branches expr statement n

/-- Reads a scheme, and the gap after it. -/
def scheme (n : Nat) : Scanner (List (String × Expr)) := do
  expect '#'
  let found ← object expr n
  skip
  return found

/-- Reads a fork with its scheme. -/
def schemed (n : Nat) : Scanner Statement := do
  let fields ← scheme expr n
  if ← seesWord "if" then return .fork ⟨some fields, ← conditional expr statement n n⟩
  else if ← seesWord "fork" then return .fork ⟨some fields, ← fork expr statement n⟩
  else fault .expectedForkAfterScheme

/-- Reads an `input`. -/
def input (n : Nat) : Scanner Statement := do
  expectWord "input"
  skip
  expectText "->"
  skip
  let result ← identifier
  skip
  return .input result (.plain (← branches expr statement n))

/-- Reads the arguments of a program to run, which may stand apart from its name. -/
def runArguments (n : Nat) (name : Expr) : Scanner (Expr × List Expr) := do
  let saved ← cursor
  skip
  if ← eat '(' then return (name, ← enclosed ')' expr n)
  else
    moveTo saved
    return Reader.splitCall name

/-- Reads a `run`: a name, arguments, and optionally a result and branches. -/
def run (n : Nat) : Scanner Statement := do
  expectWord "run"
  skip
  let name ← expr
  let (name, args) ← runArguments expr n name
  let saved ← cursor
  skip
  if ← startsWith ['-', '>'] then
    advance 2
    skip
    let result ← identifier
    let saved ← cursor
    skip
    if ← sees '{' then
      return .run name args (some result) (some (.plain (← branches expr statement n)))
    else
      moveTo saved
      return .run name args (some result) none
  else
    moveTo saved
    return .run name args none none

/-- Reads one imported name or more, divided by commas. -/
def imports : Nat → Scanner (List String)
  | 0 => fault .exhausted
  | n + 1 => do
    skip
    let first ← identifier
    let saved ← cursor
    skip
    if ← eat ',' then return first :: (← imports n)
    else
      moveTo saved
      return [first]

/-- Reads a `use`: a module and the names imported from it. -/
def use (n : Nat) : Scanner Statement := do
  expectWord "use"
  expectBlank "use"
  if ← sees '"' then
    let source ← string
    expectBlank "module name"
    expectWord "import"
    let names ← imports n
    return .use (.literal (.string source)) (names.map Literal.string)
  else fault .expectedModuleName

/-- Reads a definition. -/
def define (n : Nat) : Scanner Statement := do
  expectWord "def"
  expectBlank "def"
  let name ← identifier
  skip
  expect '('
  let params ← enclosed ')' identifier n
  skip
  let body ← block statement n
  return .define name params body

/-- Reads the targets of an assignment, divided by commas, and the gap after them. -/
def targets : Nat → Scanner (List Expr)
  | 0 => fault .exhausted
  | n + 1 => do
    skip
    let first ← expr
    skip
    if ← eat ',' then return first :: (← targets n) else return [first]

/-- Passes the sign `=` of an assignment, if it comes next, and says whether it did. -/
def eatAssign : Scanner Bool := do
  if ← startsWith ['=', '='] then return false else eat '='

/-- Reads an assignment. -/
def assignment (n : Nat) : Scanner Statement := do
  let elements ← targets expr n
  if ← eatAssign then
    skip
    let value ← expr
    return .set (.ofElements elements) value
  else fault (.expected "=")

/-- Whether what follows a keyword of a length makes it the first target of an assignment. -/
def assignsAfter (length : Nat) : Scanner Bool := do
  let text ← remaining
  let rest ← sliced fun _ => sliceFrom? length text
  return Reader.assigns rest

/-- The keyword that a statement starts with. -/
def peekKeyword : Scanner (Option Keyword) := do
  match ← peekWord with
  | none => return none
  | some word =>
    match Keyword.ofText? word with
    | none => return none
    | some keyword =>
      if ← assignsAfter (byteLength word.toList) then return none else return some keyword

/-- Reads a statement that starts with a keyword. -/
def keyworded (n : Nat) : Keyword → Scanner Statement
  | .condition => do return .fork (.plain (← conditional expr statement n n))
  | .fork => do return .fork (.plain (← fork expr statement n))
  | .input => input expr statement n
  | .await => do
    advance (byteLength "await".toList)
    expectBlank "await"
    let found ← expr
    skip
    return .await found (← block statement n)
  | .once => do
    advance (byteLength "once".toList)
    skip
    return .once (← block statement n)
  | .perform verb => do
    advance (byteLength verb.text.toList)
    expectBlank verb.text
    return .perform verb (← expr)
  | .run => run expr statement n
  | .use => use n
  | .define => define statement n

/-- Reads a statement, at its first character. -/
def oneStatement (n : Nat) : Scanner Statement := do
  if ← sees '#' then schemed expr statement n
  else
    match ← peekKeyword with
    | some keyword => keyworded expr statement n keyword
    | none => assignment expr n

end

/-! ## The whole source -/

/-- Reads a statement, under a bound on nesting and repetition. -/
def statementAt : Nat → Scanner Statement
  | 0 => fault .exhausted
  | n + 1 => oneStatement (expressionAt (n + 1)) (statementAt n) (n + 1)

/-- Reads a script, which has to be the whole source. -/
def script (n : Nat) : Scanner Script := do
  let found ← statements (statementAt n) n
  skip
  if ← atEnd then return found
  else fault (.unexpected ((← peek).getD '\x00'))

end Scanner

/-! ## Reports -/

namespace Text

/-- The offset of the first character of a kind in a text. -/
def firstOffset? (c : Char) : List Char → Option Nat
  | [] => none
  | d :: text => if d = c then some 0 else (firstOffset? c text).map (d.utf8Size + ·)

/-- The offset of the last character of a kind in a text. -/
def lastOffset? (c : Char) : List Char → Option Nat
  | [] => none
  | d :: text =>
    match lastOffset? c text with
    | some offset => some (d.utf8Size + offset)
    | none => if d = c then some 0 else none

/-- The offset after the last newline of a text, or its start if there is none. -/
def lineStart (text : List Char) : Nat := ((lastOffset? '\n' text).map (· + 1)).getD 0

/-- The position of an offset, found in slices of the text. -/
def Position.sliced? (source : List Char) (offset : Nat) : Option Position := do
  let consumed ← sliceTo? (min offset (byteLength source)) source
  let line ← sliceFrom? (lineStart consumed) consumed
  some ⟨consumed.count '\n' + 1, line.length, offset⟩

end Text

/-- The diagnostic for an offset, found in slices of the source. -/
def Diagnostic.sliced? (code : FaultCode) (message : String) (source : List Char)
    (offset : Nat) : Option Diagnostic := do
  let position ← Position.sliced? source offset
  let consumed ← sliceTo? (min position.offset (byteLength source)) source
  let start := Text.lineStart consumed
  let below ← sliceFrom? start source
  let stop := ((Text.firstOffset? '\n' below).map (start + ·)).getD (byteLength source)
  let line ← slice? start stop source
  some ⟨code, message, position, String.ofList (skipBlanks line)⟩

/-- What scanning a source text comes to, if no slice is missing and no bound is reached. -/
def Script.scan? (source : String) : Option (Except Diagnostic Script) :=
  match (Scanner.script (source.toList.length + 1)).on source.toList 0 with
  | .done found _ => some (.ok found)
  | .fault cause offset =>
    if cause = .exhausted then none
    else (Diagnostic.sliced? cause.code cause.message source.toList offset).map .error
  | .cut => none

end Dialogue
