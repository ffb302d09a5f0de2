import Dialogue.Reader.Lexeme
import Dialogue.Script.Expr

/-!
# Reading expressions

Each form of an expression is a reader of its own, built on a reader for the expressions inside
it. `expressionAt` ties the knot: its argument bounds how deep expressions may nest and how often
a form may repeat, and any bound above the length of the text is enough, because each level and
each repetition reads a character.
-/

namespace Dialogue

open Text (isBlank skip)

namespace Reader

/-! ## Lists and objects -/

/-- Reads one item or more, divided by commas, up to a closing character. -/
def items {α : Type} (close : Char) (item : Reader α) : Nat → Reader (List α)
  | 0, text => fault .exhausted text
  | n + 1, text => do
    let (first, text) ← item (skip text)
    match eat? ',' (skip text) with
    | some rest => do
      let (others, text) ← items close item n rest
      .ok (first :: others, text)
    | none => do
      let text ← expect close (skip text)
      .ok ([first], text)

/-- Reads any number of items, divided by commas, up to a closing character. -/
def enclosed {α : Type} (close : Char) (item : Reader α) (n : Nat) : Reader (List α) := fun text =>
  match eat? close (skip text) with
  | some rest => .ok ([], rest)
  | none => items close item n (skip text)

/-- Whether a text starts like a numeral. -/
def startsNumeral : List Char → Bool
  | [] => false
  | c :: _ => isNumeralStart c

/-- Reads the key of a field: a string, a numeral, which is kept as written, or an identifier. -/
def fieldKey : Reader String := fun text =>
  if (eat? '"' text).isSome then string text
  else if startsNumeral text then do
    let ((run, _), rest) ← numeral text
    .ok (String.ofList run, rest)
  else identifier text

/-- Reads the fields of an object whose opening brace has been read. A comma may follow the
last field. -/
def fields (expr : Reader Expr) : Nat → Reader (List (String × Expr))
  | 0, text => fault .exhausted text
  | n + 1, text =>
    match eat? '}' (skip text) with
    | some rest => .ok ([], rest)
    | none => do
      let (key, text) ← fieldKey (skip text)
      let text ← expect ':' (skip text)
      let (value, text) ← expr (skip text)
      match eat? ',' (skip text) with
      | some rest => do
        let (others, text) ← fields expr n rest
        .ok ((key, value) :: others, text)
      | none => do
        let text ← expect '}' (skip text)
        .ok ([(key, value)], text)

/-- Reads an object. -/
def object (expr : Reader Expr) (n : Nat) : Reader (List (String × Expr)) := fun text => do
  fields expr n (← expect '{' text)

/-! ## Operands -/

/-- What a word stands for as an expression. -/
def ofWord (word : String) : Expr :=
  if word = "true" then .literal (.boolean true)
  else if word = "false" then .literal (.boolean false)
  else .name word

/-- Reads an expression in parentheses, after the opening one. -/
def parenthesized (expr : Reader Expr) : Reader Expr := fun text => do
  let (inner, text) ← expr (skip text)
  let text ← expect ')' (skip text)
  .ok (inner, text)

/-- Reads an expression that no operator is part of. -/
def primary (expr : Reader Expr) (n : Nat) : Reader Expr
  | [] => fault .expectedExpression []
  | c :: rest =>
    if c = '"' then do
      let (content, text) ← string (c :: rest)
      .ok (.literal (.string content), text)
    else if isNumeralStart c then do
      let ((_, value), text) ← numeral (c :: rest)
      .ok (.literal (.number value), text)
    else if c = '{' then do
      let (found, text) ← object expr n (c :: rest)
      .ok (.object found, text)
    else if c = '[' then do
      let (elements, text) ← enclosed ']' expr n rest
      .ok (.array elements, text)
    else if c = '(' then parenthesized expr rest
    else
      match word? (c :: rest) with
      | some (word, text) => .ok (ofWord word, text)
      | none => fault .expectedExpression (c :: rest)

/-- Reads the indexings and calls that directly follow an expression. -/
def trailers (expr : Reader Expr) (n : Nat) : Nat → Expr → Reader Expr
  | 0, _, text => fault .exhausted text
  | k + 1, target, text =>
    match eat? '[' text with
    | some rest => do
      let (property, text) ← expr (skip rest)
      let text ← expect ']' (skip text)
      trailers expr n k (.member target property) text
    | none =>
      match eat? '(' text with
      | some rest => do
        let (args, text) ← enclosed ')' expr n rest
        trailers expr n k (.call target args) text
      | none => .ok (target, text)

/-- What follows a `!` that negates an expression, if the text starts with one. -/
def eatNot? (text : List Char) : Option (List Char) :=
  match eat? '!' text with
  | some rest => if (eat? '=' rest).isSome then none else some rest
  | none => none

/-- Reads an operand: an expression with its indexings and calls, under any number of
negations. -/
def operand (expr : Reader Expr) (n : Nat) : Nat → Reader Expr
  | 0, text => fault .exhausted text
  | k + 1, text =>
    match eatNot? text with
    | some rest => do
      let (inner, text) ← operand expr n k (skip rest)
      .ok (.not inner, text)
    | none => do
      let (target, text) ← primary expr n text
      trailers expr n n target text

/-! ## Operators -/

/-- What follows an operator, if the text starts with it. A word operator needs a blank after
it. -/
def eatOperator? (op : Operator) (text : List Char) : Option (List Char) :=
  match eatText? op.text.toList text with
  | none => none
  | some rest =>
    if op.isWord then if rest.head?.any isBlank then some rest else none
    else some rest

/-- The operator of a level that a text starts with, and what follows it. An arrow is never the
start of an operator. -/
def operator? (level : List Operator) (text : List Char) : Option (Operator × List Char) :=
  if (eatText? ['-', '>'] text).isSome then none
  else level.findSome? fun op => (eatOperator? op text).map fun rest => (op, rest)

/-- Reads further operators of a level and their right operands, grouping to the left. -/
def operations (level : List Operator) (tighter : Reader Expr) : Nat → Expr → Reader Expr
  | 0, _, text => fault .exhausted text
  | n + 1, left, text =>
    match operator? level (skip text) with
    | none => .ok (left, text)
    | some (op, rest) => do
      let (right, text) ← tighter (skip rest)
      operations level tighter n (.binary op left right) text

/-- Reads an expression with the operators of the given levels, the loosest first. -/
def binary (tightest : Reader Expr) (n : Nat) : List (List Operator) → Reader Expr
  | [], text => tightest text
  | level :: levels, text => do
    let (left, text) ← binary tightest n levels text
    operations level (binary tightest n levels) n left text

/-- Reads an expression, under a bound on nesting and repetition. -/
def expressionAt : Nat → Reader Expr
  | 0, text => fault .exhausted text
  | n + 1, text => binary (operand (expressionAt n) (n + 1) (n + 1)) (n + 1) Operator.levels text

end Reader

end Dialogue
