import Dialogue.Reader.Expression
import Dialogue.Scanner.Lexeme

/-!
# Scanning expressions

The forms of an expression, each scanned from the cursor on. As for readers, a form is built on a
scan of the expressions inside it, and the bounds on nesting and repetition are the same.
-/

namespace Dialogue

open Text (byteLength sliceFrom? slice? isBlank)

namespace Scanner

/-! ## Lists and objects -/

/-- Reads one item or more, divided by commas, up to a closing character. -/
def items {α : Type} (close : Char) (item : Scanner α) : Nat → Scanner (List α)
  | 0 => fault .exhausted
  | n + 1 => do
    skip
    let first ← item
    skip
    if ← eat ',' then
      return first :: (← items close item n)
    else
      expect close
      return [first]

/-- Reads any number of items, divided by commas, up to a closing character. -/
def enclosed {α : Type} (close : Char) (item : Scanner α) (n : Nat) : Scanner (List α) := do
  skip
  if ← eat close then return [] else items close item n

/-- Reads the key of a field: a string, a numeral, which is kept as written, or an identifier. -/
def fieldKey : Scanner String := do
  match ← peek with
  | none => identifier
  | some c =>
    if c = '"' then string
    else if Reader.isNumeralStart c then
      let start ← cursor
      let _ ← numeral
      let stop ← cursor
      return String.ofList (← sliced (slice? start stop))
    else identifier

/-- Reads the fields of an object whose opening brace has been read. -/
def fields (expr : Scanner Expr) : Nat → Scanner (List (String × Expr))
  | 0 => fault .exhausted
  | n + 1 => do
    skip
    if ← eat '}' then return []
    else
      let key ← fieldKey
      skip
      expect ':'
      skip
      let value ← expr
      skip
      if ← eat ',' then
        return (key, value) :: (← fields expr n)
      else
        expect '}'
        return [(key, value)]

/-- Reads an object. -/
def object (expr : Scanner Expr) (n : Nat) : Scanner (List (String × Expr)) := do
  expect '{'
  fields expr n

/-! ## Operands -/

/-- Reads an expression in parentheses, after the opening one. -/
def parenthesized (expr : Scanner Expr) : Scanner Expr := do
  skip
  let inner ← expr
  skip
  expect ')'
  return inner

/-- Reads an expression that is a word. -/
def named : Scanner Expr := do
  match ← peekWord with
  | none => fault .expectedExpression
  | some word =>
    if word = "true" then
      advance 4
      return .literal (.boolean true)
    else if word = "false" then
      advance 5
      return .literal (.boolean false)
    else return .name (← identifier)

/-- Reads an expression that no operator is part of. -/
def primary (expr : Scanner Expr) (n : Nat) : Scanner Expr := do
  match ← peek with
  | none => named
  | some c =>
    if c = '"' then return .literal (.string (← string))
    else if Reader.isNumeralStart c then return .literal (.number (← numeral))
    else if c = '{' then return .object (← object expr n)
    else if c = '[' then
      advance 1
      return .array (← enclosed ']' expr n)
    else if c = '(' then
      advance 1
      parenthesized expr
    else named

/-- Reads the indexings and calls that directly follow an expression. -/
def trailers (expr : Scanner Expr) (n : Nat) : Nat → Expr → Scanner Expr
  | 0, _ => fault .exhausted
  | k + 1, target => do
    if ← eat '[' then
      skip
      let property ← expr
      skip
      expect ']'
      trailers expr n k (.member target property)
    else if ← eat '(' then
      let args ← enclosed ')' expr n
      trailers expr n k (.call target args)
    else return target

/-- Reads an expression that no operator is part of, with its indexings and calls. -/
def trailed (expr : Scanner Expr) (n : Nat) : Scanner Expr := do
  let target ← primary expr n
  trailers expr n n target

/-- Whether a `!` comes next that negates an expression. -/
def seesNot : Scanner Bool := do
  let text ← remaining
  return text.head? == some '!' && text[1]? != some '='

/-- Reads an operand: an expression with its indexings and calls, under any number of
negations. -/
def operand (expr : Scanner Expr) (n : Nat) : Nat → Scanner Expr
  | 0 => fault .exhausted
  | k + 1 => do
    if ← seesNot then
      advance 1
      skip
      return .not (← operand expr n k)
    else trailed expr n

/-! ## Operators -/

/-- Whether a text starts with an operator. A word operator needs a blank after it, which is looked
for in a slice that need not exist. -/
def startsOperator (text : List Char) (op : Operator) : Bool :=
  op.text.toList.isPrefixOf text &&
    (!op.isWord ||
      ((sliceFrom? (byteLength op.text.toList) text).bind List.head?).any isBlank)

/-- The operator of a level that comes next. An arrow is never the start of an operator. -/
def peekOperator (level : List Operator) : Scanner (Option Operator) := do
  if ← startsWith ['-', '>'] then return none
  else return level.find? (startsOperator (← remaining))

/-- Reads further operators of a level and their right operands, grouping to the left. -/
def operations (level : List Operator) (tighter : Scanner Expr) : Nat → Expr → Scanner Expr
  | 0, _ => fault .exhausted
  | n + 1, left => do
    let saved ← cursor
    skip
    match ← peekOperator level with
    | none =>
      moveTo saved
      return left
    | some op =>
      advance (byteLength op.text.toList)
      skip
      let right ← tighter
      operations level tighter n (.binary op left right)

/-- Reads an expression with the operators of the given levels, the loosest first. -/
def binary (tightest : Scanner Expr) (n : Nat) : List (List Operator) → Scanner Expr
  | [] => tightest
  | level :: levels => do
    let left ← binary tightest n levels
    operations level (binary tightest n levels) n left

/-- Reads an expression, under a bound on nesting and repetition. -/
def expressionAt : Nat → Scanner Expr
  | 0 => fault .exhausted
  | n + 1 => binary (operand (expressionAt n) (n + 1) (n + 1)) (n + 1) Operator.levels

end Scanner

end Dialogue
