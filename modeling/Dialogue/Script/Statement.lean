import Dialogue.Script.Expr

/-!
# Statements of a script

A script is a list of statements. A *fork* is a list of branches, each a body under an optional
condition. Two statements bind a name in the branches of their fork: `input` the received input,
and a `run` that has branches the value that the other program returns.
-/

namespace Dialogue

/-- A branch of a fork; without a condition it is a default branch. -/
structure Branch (σ : Type) where
  condition : Option Expr
  body : List σ

/-- A choice between branches, with optional data for the runtime. -/
structure Fork (σ : Type) where
  scheme : Option (List (String × Expr))
  branches : List (Branch σ)

/-- A fork without data for the runtime. -/
def Fork.plain {σ : Type} (branches : List (Branch σ)) : Fork σ := ⟨none, branches⟩

/-- What an assignment assigns to: a name, a list of targets, or a place inside the value of a
root. -/
inductive Target where
  | name (name : String)
  | list (elements : List Expr)
  | edit (root : Expr) (keys : List Expr)

/-- The target that the expressions before `=` make: a single chain of indexing is an edit. -/
def Target.ofElements : List Expr → Target
  | [.member target property] =>
    let (root, keys) := (Expr.member target property).unindex
    .edit root keys
  | elements => .list elements

/-- The verbs that hand a single value to the runtime. -/
inductive Verb where
  | act | hop | pop
  deriving DecidableEq, Repr

/-- How a verb is written. -/
def Verb.text : Verb → String
  | .act => "act"
  | .hop => "hop"
  | .pop => "pop"

/-- A statement. -/
inductive Statement where
  | fork (fork : Fork Statement)
  | input (result : String) (fork : Fork Statement)
  | await (condition : Expr) (body : List Statement)
  | once (body : List Statement)
  | perform (verb : Verb) (value : Expr)
  | set (target : Target) (value : Expr)
  | run (name : Expr) (args : List Expr) (result : Option String) (fork : Option (Fork Statement))
  | use (name : Expr) (imports : List Literal)
  | define (name : String) (params : List String) (body : List Statement)

/-- A script: the statements of a source text, in order. -/
abbrev Script := List Statement

/-- The fork of a statement that has one. -/
def Statement.fork? : Statement → Option (Fork Statement)
  | .fork choice => some choice
  | .input _ choice => some choice
  | .run _ _ _ choice => choice
  | _ => none

end Dialogue
