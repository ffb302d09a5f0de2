import Dialogue.Lowering.Problem
import Dialogue.Number.Double
import Dialogue.Script.Expr

/-!
# Preferences

A call `pref(object, names)` states how a program should behave as an object of numbers and
switches. It stands for pairs of that object and a copy in which the named fields are nudged:
switches are flipped, and a number `v` moves by `3 * v`, or by one if it is zero. An object of
switches alone makes one pair; with a number in it there is a pair for each direction.
-/

namespace Dialogue

/-- Which way numbers are nudged. -/
inductive Direction where
  | up | down
  deriving DecidableEq, Repr

/-- Moves a number away from zero or through it. -/
def Double.nudge (direction : Direction) (v : Double) : Double :=
  let step := if v.isZero then .ofInt 1 else v * .ofInt 3
  match direction with
  | .up => v + step
  | .down => v - step

/-- Nudges a literal: the direction only matters for numbers, and strings stay. -/
def Literal.nudge (direction : Direction) : Literal → Literal
  | .boolean b => .boolean (!b)
  | .number v => .number (v.nudge direction)
  | .string s => .string s

namespace Preference

/-- The fields of an object whose values are literals. -/
abbrev Fields := List (String × Literal)

/-- What a preference stands for. -/
inductive Expansion where
  /-- The object and its nudged copy. -/
  | pair (base nudged : Fields)
  /-- The object with its copy nudged up, and with its copy nudged down. -/
  | spread (base up down : Fields)

/-- The name of the call that states a preference. -/
def callName : String := "pref"

/-- Nudges the fields with the given names. -/
def nudge (names : List String) (direction : Direction) (fields : Fields) : Fields :=
  fields.map fun field =>
    (field.1, if field.1 ∈ names then field.2.nudge direction else field.2)

/-- Whether a literal is a number. -/
def isNumber : Literal → Bool
  | .number _ => true
  | _ => false

/-- The object and the optional list of names among the arguments. -/
def arguments : List Expr → Except Problem (List (String × Expr) × Option Expr)
  | [.object fields] => .ok (fields, none)
  | [.object fields, names] => .ok (fields, some names)
  | args =>
    if args.length ≤ 2 then .error .preferenceWithoutObject
    else .error (.preferenceArgumentCount args.length)

/-- The strings that a list of names is made of. -/
def strings : List Expr → Except Problem (List String)
  | [] => .ok []
  | .literal (.string name) :: rest => do
    let names ← strings rest
    .ok (name :: names)
  | _ :: _ => .error .preferenceNameNotString

/-- The names to nudge: those listed, or all names of the object if there is no list. -/
def nudgedNames (fields : List (String × Expr)) : Option Expr → Except Problem (List String)
  | none => .ok (fields.map Prod.fst)
  | some (.array elements) => strings elements
  | some _ => .error .preferenceNamesNotList

/-- The fields of an object, which have to be numbers and switches. -/
def constants : List (String × Expr) → Except Problem Fields
  | [] => .ok []
  | (key, .literal (.number v)) :: rest => do
    let fields ← constants rest
    .ok ((key, .number v) :: fields)
  | (key, .literal (.boolean b)) :: rest => do
    let fields ← constants rest
    .ok ((key, .boolean b) :: fields)
  | _ :: _ => .error .preferenceValueNotConstant

/-- What the arguments of a preference stand for. -/
def expand (args : List Expr) : Except Problem Expansion := do
  let (object, list) ← arguments args
  let names ← nudgedNames object list
  let fields ← constants object
  if fields.any (isNumber ·.2) then
    .ok (.spread fields (nudge names .up fields) (nudge names .down fields))
  else .ok (.pair fields (nudge names .up fields))

/-- What an expression stands for, if it states a preference. -/
def expandCall? : Expr → Except Problem (Option Expansion)
  | .call (.name x) args =>
    if x = callName then do
      let expansion ← expand args
      .ok (some expansion)
    else .ok none
  | _ => .ok none

/-- An object of literals as an expression. -/
def Fields.toExpr (fields : Fields) : Expr :=
  .object (fields.map fun field => (field.1, .literal field.2))

/-- An expansion as an expression. -/
def Expansion.toExpr : Expansion → Expr
  | .pair base nudged => .array [base.toExpr, nudged.toExpr]
  | .spread base up down =>
    .spread [.array [base.toExpr, up.toExpr], .array [base.toExpr, down.toExpr]]

end Preference

end Dialogue
