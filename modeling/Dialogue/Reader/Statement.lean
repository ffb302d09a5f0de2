import Dialogue.Reader.Expression
import Dialogue.Script.Statement

/-!
# Reading statements

As for expressions, each form is a reader built on readers for what stands inside it, and
`statementAt` ties the knot under a bound on nesting and repetition. A statement has no
terminator: it ends where nothing that follows can go on with it.
-/

namespace Dialogue

open Text (isBlank skip skipBlanks)

/-- The words that start a statement. -/
inductive Keyword where
  | condition
  | fork
  | input
  | await
  | once
  | perform (verb : Verb)
  | run
  | use
  | define
  deriving DecidableEq, Repr

namespace Keyword

/-- How a keyword is written. -/
def text : Keyword → String
  | .condition => "if"
  | .fork => "fork"
  | .input => "input"
  | .await => "await"
  | .once => "once"
  | .perform verb => verb.text
  | .run => "run"
  | .use => "use"
  | .define => "def"

/-- All keywords. -/
def all : List Keyword :=
  [.condition, .fork, .input, .await, .once, .perform .act, .perform .hop, .perform .pop, .run,
   .use, .define]

/-- The keyword that a word is. -/
def ofText? (word : String) : Option Keyword := all.find? (·.text = word)

end Keyword

namespace Reader

/-! ## Blocks and branches -/

section

variable (expr : Reader Expr) (statement : Reader Statement)

/-- Reads statements up to the end of the text or a closing brace, which is not read. -/
def statements : Nat → Reader (List Statement)
  | 0, text => fault .exhausted text
  | n + 1, text =>
    match skip text with
    | [] => .ok ([], [])
    | c :: rest =>
      if c = '}' then .ok ([], c :: rest)
      else do
        let (first, text) ← statement (c :: rest)
        let (others, text) ← statements n text
        .ok (first :: others, text)

/-- Reads statements in braces. -/
def block (n : Nat) : Reader (List Statement) := fun text => do
  let text ← expect '{' text
  let (body, text) ← statements statement n text
  let text ← expect '}' (skip text)
  .ok (body, text)

/-- What follows the mark `_` of a default branch, if the text starts with one. -/
def eatDefault? (text : List Char) : Option (List Char) :=
  match eat? '_' text with
  | some rest => if rest.head?.any isWordPart then none else some rest
  | none => none

/-- Reads the condition of a branch, and the gap after it. -/
def condition : Reader (Option Expr) := fun text =>
  match eatDefault? text with
  | some rest =>
    if (eat? '{' (skip rest)).isSome then .ok (none, skip rest)
    else fault .expectedBlockAfterDefault (skip rest)
  | none =>
    if (eatWord? "if" text).isSome then fault .ifInCondition text
    else do
      let (found, text) ← expr text
      .ok (some found, skip text)

/-- Reads a branch: a condition and a block. -/
def branch (n : Nat) : Reader (Branch Statement) := fun text => do
  let (found, text) ← condition expr text
  let (body, text) ← block statement n text
  .ok (⟨found, body⟩, text)

/-- Reads branches up to the end of the text or a closing brace, which is not read. -/
def branchList (n : Nat) : Nat → Reader (List (Branch Statement))
  | 0, text => fault .exhausted text
  | k + 1, text =>
    match skip text with
    | [] => .ok ([], [])
    | c :: rest =>
      if c = '}' then .ok ([], c :: rest)
      else do
        let (first, text) ← branch expr statement n (c :: rest)
        let (others, text) ← branchList n k text
        .ok (first :: others, text)

/-- Reads branches in braces. -/
def branches (n : Nat) : Reader (List (Branch Statement)) := fun text => do
  let text ← expect '{' text
  let (found, text) ← branchList expr statement n n text
  let text ← expect '}' text
  .ok (found, text)

/-! ## Forms of statements -/

/-- Reads the branches of an `if`, after that word: a condition and a block, and those of the
`else` that may follow. -/
def conditional (n : Nat) : Nat → Reader (List (Branch Statement))
  | 0, text => fault .exhausted text
  | k + 1, text => do
    let text ← expectBlank "if" text
    let (found, text) ← expr text
    let (body, text) ← block statement n (skip text)
    match eatWord? "else" (skip text) with
    | none => .ok ([⟨some found, body⟩], text)
    | some rest =>
      if (eat? '{' (skip rest)).isSome then do
        let (last, text) ← block statement n (skip rest)
        .ok ([⟨some found, body⟩, ⟨none, last⟩], text)
      else
        match eatWord? "if" (skip rest) with
        | some rest => do
          let (others, text) ← conditional n k rest
          .ok (⟨some found, body⟩ :: others, text)
        | none => fault .expectedBlockAfterElse (skip rest)

/-- Reads the fork that a scheme belongs to, at the word `if` or `fork`. -/
def schemed (n : Nat) (scheme : List (String × Expr)) : Reader Statement := fun text =>
  match eatWord? "if" text with
  | some rest => do
    let (found, text) ← conditional expr statement n n rest
    .ok (.fork ⟨some scheme, found⟩, text)
  | none =>
    match eatWord? "fork" text with
    | some rest => do
      let (found, text) ← branches expr statement n (skip rest)
      .ok (.fork ⟨some scheme, found⟩, text)
    | none => fault .expectedForkAfterScheme text

/-- Reads the result and the branches of an `input`, after that word. -/
def input (n : Nat) : Reader Statement := fun text => do
  let text := skip text
  match eatText? ['-', '>'] text with
  | none => fault (.expected "->") text
  | some rest => do
    let (result, text) ← identifier (skip rest)
    let (found, text) ← branches expr statement n (skip text)
    .ok (.input result (.plain found), text)

/-- The name and the arguments of a program to run that is written as a call. -/
def splitCall : Expr → Expr × List Expr
  | .call callee args => (callee, args)
  | name => (name, [])

/-- Reads the arguments of a program to run, which may stand apart from its name. -/
def runArguments (n : Nat) (name : Expr) : Reader (Expr × List Expr) := fun text =>
  match eat? '(' (skip text) with
  | some rest => do
    let (args, text) ← enclosed ')' expr n rest
    .ok ((name, args), text)
  | none => .ok (splitCall name, text)

/-- Reads a `run`, after that word: a name, arguments, and optionally a result and branches. -/
def run (n : Nat) : Reader Statement := fun text => do
  let (name, text) ← expr (skip text)
  let ((name, args), text) ← runArguments expr n name text
  match eatText? ['-', '>'] (skip text) with
  | none => .ok (.run name args none none, text)
  | some rest => do
    let (result, text) ← identifier (skip rest)
    if (eat? '{' (skip text)).isSome then do
      let (found, text) ← branches expr statement n (skip text)
      .ok (.run name args (some result) (some (.plain found)), text)
    else .ok (.run name args (some result) none, text)

/-- Reads one imported name or more, divided by commas. -/
def imports : Nat → Reader (List String)
  | 0, text => fault .exhausted text
  | n + 1, text => do
    let (first, text) ← identifier (skip text)
    match eat? ',' (skip text) with
    | some rest => do
      let (others, text) ← imports n rest
      .ok (first :: others, text)
    | none => .ok ([first], text)

/-- Reads a `use`, after that word: a module and the names imported from it. -/
def use (n : Nat) : Reader Statement := fun text => do
  let text ← expectBlank "use" text
  if (eat? '"' text).isSome then do
    let (source, text) ← string text
    let text ← expectBlank "module name" text
    let text ← expectWord "import" text
    let (names, text) ← imports n text
    .ok (.use (.literal (.string source)) (names.map Literal.string), text)
  else fault .expectedModuleName text

/-- Reads a definition, after the word `def`. -/
def define (n : Nat) : Reader Statement := fun text => do
  let text ← expectBlank "def" text
  let (name, text) ← identifier text
  let text ← expect '(' (skip text)
  let (params, text) ← enclosed ')' identifier n text
  let (body, text) ← block statement n (skip text)
  .ok (.define name params body, text)

/-- Reads the targets of an assignment, divided by commas, and the gap after them. -/
def targets : Nat → Reader (List Expr)
  | 0, text => fault .exhausted text
  | n + 1, text => do
    let (first, text) ← expr (skip text)
    match eat? ',' (skip text) with
    | some rest => do
      let (others, text) ← targets n rest
      .ok (first :: others, text)
    | none => .ok ([first], skip text)

/-- What follows the sign `=` of an assignment, if the text starts with one. -/
def eatAssign? (text : List Char) : Option (List Char) :=
  match eat? '=' text with
  | some rest => if (eat? '=' rest).isSome then none else some rest
  | none => none

/-- Reads an assignment. -/
def assignment (n : Nat) : Reader Statement := fun text => do
  let (elements, text) ← targets expr n text
  match eatAssign? text with
  | none => fault (.expected "=") text
  | some rest => do
    let (value, text) ← expr (skip rest)
    .ok (.set (.ofElements elements) value, text)

/-- Whether what follows a keyword makes it the first target of an assignment. Blanks may stand
between the two, comments may not. -/
def assigns (text : List Char) : Bool :=
  (eat? ',' (skipBlanks text)).isSome || (eatAssign? (skipBlanks text)).isSome

/-- The keyword that starts a statement, and what follows it. -/
def keyword? (text : List Char) : Option (Keyword × List Char) := do
  let (word, rest) ← word? text
  let found ← Keyword.ofText? word
  if assigns rest then none else some (found, rest)

/-- Reads the remainder of a statement that starts with a keyword. -/
def keyworded (n : Nat) : Keyword → Reader Statement
  | .condition, text => do
    let (found, text) ← conditional expr statement n n text
    .ok (.fork (.plain found), text)
  | .fork, text => do
    let (found, text) ← branches expr statement n (skip text)
    .ok (.fork (.plain found), text)
  | .input, text => input expr statement n text
  | .await, text => do
    let text ← expectBlank "await" text
    let (found, text) ← expr text
    let (body, text) ← block statement n (skip text)
    .ok (.await found body, text)
  | .once, text => do
    let (body, text) ← block statement n (skip text)
    .ok (.once body, text)
  | .perform verb, text => do
    let text ← expectBlank verb.text text
    let (value, text) ← expr text
    .ok (.perform verb value, text)
  | .run, text => run expr statement n text
  | .use, text => use n text
  | .define, text => define statement n text

/-- Reads a statement, at its first character. -/
def oneStatement (n : Nat) : Reader Statement := fun text =>
  match eat? '#' text with
  | some rest => do
    let (scheme, text) ← object expr n rest
    schemed expr statement n scheme (skip text)
  | none =>
    match keyword? text with
    | some (keyword, rest) => keyworded expr statement n keyword rest
    | none => assignment expr n text

end

/-! ## The whole text -/

/-- Reads a statement, under a bound on nesting and repetition. -/
def statementAt : Nat → Reader Statement
  | 0, text => fault .exhausted text
  | n + 1, text => oneStatement (expressionAt (n + 1)) (statementAt n) (n + 1) text

/-- Reads a script, which has to be the whole text. -/
def script (text : List Char) : Except Fault Script := do
  let (found, rest) ← statements (statementAt (text.length + 1)) (text.length + 1) text
  match skip rest with
  | [] => .ok found
  | c :: rest => fault (.unexpected c) (c :: rest)

end Reader

end Dialogue
