import Dialogue.Failure

/-!
# Traces

A trace lists what happens while a source text is compiled: that it was read, each renaming of a
result, each expansion of a preference, and that it was lowered. Events come in the order of
lowering and stop at the first failure.
-/

namespace Dialogue

/-- How important an event is. -/
inductive Importance where
  | debug | trace
  deriving DecidableEq, Repr

/-- Something that happens during compilation. -/
inductive Event where
  /-- A text was read as a number of statements. -/
  | read (statements : Nat)
  /-- A result is renamed in the branches of its fork. -/
  | rename (old new : String)
  /-- A preference with numbers was expanded. -/
  | expandNumbers
  /-- A preference of switches was expanded. -/
  | expandSwitches
  /-- A number of statements was lowered. -/
  | lowered (statements : Nat)
  deriving DecidableEq, Repr

namespace Event

/-- How important an event is. -/
def importance : Event → Importance
  | .read _ => .debug
  | .lowered _ => .debug
  | _ => .trace

/-- The wording of an event. -/
def message : Event → String
  | .read count => "parsed " ++ toString count ++ " top-level statements"
  | .rename old new => "renaming `" ++ old ++ "` to `" ++ new ++ "` in fork scope"
  | .expandNumbers => "pref: numeric fields, expanding to an up/down spread"
  | .expandSwitches => "pref: boolean fields, expanding to a single pair"
  | .lowered count => "compiled " ++ toString count ++ " top-level statements"

end Event

/-! ## Progress -/

/-- How far a step of lowering gets: its events, and whether it is completed. -/
structure Progress where
  events : List Event
  complete : Bool
  deriving DecidableEq, Repr

namespace Progress

/-- A step without events that is completed. -/
def done : Progress := ⟨[], true⟩

/-- A step without events that fails. -/
def failed : Progress := ⟨[], false⟩

/-- Two steps, the second of which is only taken if the first is completed. -/
def andThen (first second : Progress) : Progress :=
  if first.complete then ⟨first.events ++ second.events, second.complete⟩ else first

/-- A step that starts with an event. -/
def after (event : Event) (progress : Progress) : Progress :=
  ⟨event :: progress.events, progress.complete⟩

end Progress

/-! ## Expressions -/

/-- How far the expansion of a preference gets. -/
def Preference.progress (args : List Expr) : Progress :=
  match Preference.expand args with
  | .ok (.spread ..) => ⟨[.expandNumbers], true⟩
  | .ok (.pair ..) => ⟨[.expandSwitches], true⟩
  | .error _ => .failed

mutual

/-- How far the lowering of an expression gets. -/
def Expr.progress : Expr → Progress
  | .binary _ left right => left.progress.andThen right.progress
  | .not operand => operand.progress
  | .call callee args =>
    if callee.isName "exists" then Expr.progressOfFirst args
    else if callee.isName Preference.callName then Preference.progress args
    else callee.progress.andThen (Expr.progressOfList args)
  | .member target property => property.progress.andThen target.progress
  | .name _ => .done
  | .literal _ => .done
  | .array elements => Expr.progressOfList elements
  | .object fields => Expr.progressOfFields fields
  | .spread elements => Expr.progressOfList elements

/-- How far the lowering of the first of a list of expressions gets. -/
def Expr.progressOfFirst : List Expr → Progress
  | [] => .failed
  | e :: _ => e.progress

/-- How far the lowering of a list of expressions gets. -/
def Expr.progressOfList : List Expr → Progress
  | [] => .done
  | e :: es => e.progress.andThen (Expr.progressOfList es)

/-- How far the lowering of the fields of an object gets. -/
def Expr.progressOfFields : List (String × Expr) → Progress
  | [] => .done
  | (_, e) :: fields => e.progress.andThen (Expr.progressOfFields fields)

end

/-- How far the lowering of an optional expression gets. -/
def Expr.progressOfOption : Option Expr → Progress
  | none => .done
  | some e => e.progress

/-- How far the lowering of the data of a fork gets. -/
def Expr.progressOfScheme : Option (List (String × Expr)) → Progress
  | none => .done
  | some fields => Expr.progressOfFields fields

/-! ## Assignments -/

/-- How far the lowering of a list of targets gets: each has to be a name. -/
def Expr.progressOfTargets : List Expr → Progress
  | [] => .done
  | .name _ :: es => Expr.progressOfTargets es
  | e :: _ => e.progress.andThen .failed

/-- How far the lowering of the root of an edit gets: it has to lower to a string. -/
def Expr.progressOfRoot : Expr → Progress
  | .name x => if x = "null" then .failed else .done
  | .literal (.string _) => .done
  | e => e.progress.andThen .failed

/-- How far the lowering of an assignment gets. -/
def Target.progress (value : Expr) : Target → Progress
  | .name _ => value.progress
  | .list elements => (Expr.progressOfTargets elements).andThen value.progress
  | .edit root keys =>
    root.progressOfRoot.andThen (value.progress.andThen (Expr.progressOfList keys))

/-! ## Statements -/

/-- How far the lowering of the start of another program gets, in a scope. -/
def Expr.progressOfCall (scope : Scope) (name : Expr) (args : List Expr) : Progress :=
  (name.mapNames scope).progress.andThen (Expr.progressOfList (Expr.mapNamesOfList scope args))

mutual

/-- How far the lowering of a statement gets, in a scope. -/
def Statement.progress (scope : Scope) : Statement → Progress
  | .fork choice => Fork.progress scope choice
  | .input result choice =>
    .after (.rename (scope result) Scope.inputName)
      (Fork.progress (scope.bind (scope result) Scope.inputName) choice)
  | .await condition body =>
    (Statement.progressOfList scope body).andThen (condition.mapNames scope).progress
  | .once body => Statement.progressOfList scope body
  | .perform _ value => (value.mapNames scope).progress
  | .set target value => (target.mapNames scope).progress (value.mapNames scope)
  | .run name args (some result) (some choice) =>
    (Expr.progressOfCall scope name args).andThen
      (.after (.rename (scope result) Scope.returnName)
        (Fork.progress (scope.bind (scope result) Scope.returnName) choice))
  | .run name args _ _ => Expr.progressOfCall scope name args
  | .use name _ => (name.mapNames scope).progress
  | .define _ _ body => Statement.progressOfList scope body

/-- How far the lowering of a fork gets, in a scope. -/
def Fork.progress (scope : Scope) : Fork Statement → Progress
  | ⟨scheme, branches⟩ =>
    (Branch.progressOfList scope branches).andThen
      (Expr.progressOfScheme (scheme.map (Expr.mapNamesOfFields scope)))

/-- How far the lowering of a list of branches gets, in a scope. -/
def Branch.progressOfList (scope : Scope) : List (Branch Statement) → Progress
  | [] => .done
  | ⟨condition, body⟩ :: branches =>
    (Statement.progressOfList scope body).andThen
      ((Expr.progressOfOption (condition.map (Expr.mapNames scope))).andThen
        (Branch.progressOfList scope branches))

/-- How far the lowering of a list of statements gets, in a scope. -/
def Statement.progressOfList (scope : Scope) : List Statement → Progress
  | [] => .done
  | statement :: statements =>
    (statement.progress scope).andThen (Statement.progressOfList scope statements)

end

/-- The events of compiling a source text. -/
def trace (source : String) : List Event :=
  match Script.read source with
  | .error _ => []
  | .ok script =>
    .read script.length ::
      ((Statement.progressOfList id script).andThen ⟨[.lowered script.length], true⟩).events

end Dialogue
