import Dialogue.Failure

/-!
# The grammar of programs

What the runtime takes: a program is a block, or a single fork. Each statement in it has one of a
few shapes, told apart by the keys of its object, and its expressions hold no key that could be
taken for one of these: their keys are all in backticks.

The *outline* of a program is the tree of its statements and branches. It is an index of the
grammar, and `IsProgram.unique` says that a program has one outline only.
-/

namespace Dialogue

/-! ## Outlines -/

/-- A branch of an outline: whether it has a condition, and what its body is made of. -/
structure Arm (σ : Type) where
  conditional : Bool
  body : List σ

/-- The shape of a statement, with the branches and statements inside it. -/
inductive Outline where
  | fork (arms : List (Arm Outline))
  | input (arms : List (Arm Outline))
  | await (body : List Outline)
  | once (body : List Outline)
  | perform (verb : Verb)
  | set
  | run (handler : Option (List (Arm Outline)))
  | use
  | define (body : List Outline)

/-- What an outline says of its statement alone. -/
inductive Shape where
  | fork
  | input
  | await
  | once
  | perform (verb : Verb)
  | set
  | run
  | use
  | define
  deriving DecidableEq

/-- The shape of the statement itself. -/
def Outline.shape : Outline → Shape
  | .fork _ => .fork
  | .input _ => .input
  | .await _ => .await
  | .once _ => .once
  | .perform verb => .perform verb
  | .set => .set
  | .run _ => .run
  | .use => .use
  | .define _ => .define

namespace Json

/-! ## Expressions -/

/-- A text in backticks. -/
def IsQuoted (j : Json) : Prop := ∃ text, j = .string (quoted text)

/-- An expression: no array in it is empty, no string in it starts like a tag, and the keys of each
of its objects are in backticks and different. -/
inductive IsExpr : Json → Prop where
  | null : IsExpr .null
  | bool (value : Bool) : IsExpr (.bool value)
  | integer (value : Int) : IsExpr (.integer value)
  | real (value : FiniteDouble) : IsExpr (.real value)
  | string {text : String} (h : text.toList.head? ≠ some '@') : IsExpr (.string text)
  | array {elements : List Json} (hne : elements ≠ []) (h : ∀ e ∈ elements, IsExpr e) :
    IsExpr (.array elements)
  | object {members : List (String × Json)} (hkeys : ∀ m ∈ members, ∃ key, m.1 = quoted key)
    (nodup : (members.map Prod.fst).Nodup) (h : ∀ m ∈ members, IsExpr m.2) :
    IsExpr (.object members)

/-! ## Parts of statements -/

/-- The member for the data of a fork, if there is one. -/
inductive IsScheme : List (String × Json) → Prop where
  | none : IsScheme []
  | some {members : List (String × Json)} (h : IsExpr (.object members)) :
    IsScheme [("scheme", .object members)]

/-- The member for the condition of a branch, if it has one. -/
inductive IsCondition : Bool → List (String × Json) → Prop where
  | none : IsCondition false []
  | some {condition : Json} (h : IsExpr condition) : IsCondition true [("if", condition)]

/-- What is assigned to: a quoted name, or a list of quoted names. -/
inductive IsTarget : Json → Prop where
  | name {target : Json} (h : IsQuoted target) : IsTarget target
  | names {targets : List Json} (h : ∀ target ∈ targets, IsQuoted target) :
    IsTarget (.array targets)

/-- The start of another program. -/
inductive IsCall : Json → Prop where
  | intro {name : Json} {args : List Json} (hname : IsExpr name) (hargs : ∀ e ∈ args, IsExpr e) :
    IsCall (.object [("@run", name), ("args", .list args)])

/-- The member of a fork that says what it waits for. -/
def awaiting (event : String) : List (String × Json) := [("await", .array [.string event])]

/-! ## Statements -/

mutual

/-- A statement, with its outline. -/
inductive IsStatement : Outline → Json → Prop where
  | fork {arms : List (Arm Outline)} {branches : List Json} {scheme : List (String × Json)}
    (hbranches : AreBranches arms branches) (hscheme : IsScheme scheme) :
    IsStatement (.fork arms) (.fork branches scheme)
  | input {arms : List (Arm Outline)} {branches : List Json} {scheme : List (String × Json)}
    (hbranches : AreBranches arms branches) (hscheme : IsScheme scheme) :
    IsStatement (.input arms) (.fork branches (scheme ++ awaiting "input"))
  | await {body : List Outline} {statements : List Json} {condition : Json}
    (hbody : AreStatements body statements) (hcondition : IsExpr condition) :
    IsStatement (.await body) (.block statements [("await", condition)])
  | once {body : List Outline} {statements : List Json} (hbody : AreStatements body statements) :
    IsStatement (.once body) (.block statements [("once", .bool true)])
  | perform (verb : Verb) {value : Json} (hvalue : IsExpr value) :
    IsStatement (.perform verb) (.object [(verb.tag, value)])
  | set {target value : Json} (htarget : IsTarget target) (hvalue : IsExpr value) :
    IsStatement .set (.object [("@set", target), ("val", value)])
  | run {call : Json} (hcall : IsCall call) : IsStatement (.run none) (.block [call] [])
  | handledRun {call : Json} {arms : List (Arm Outline)} {branches : List Json}
    {scheme : List (String × Json)} (hcall : IsCall call) (hbranches : AreBranches arms branches)
    (hscheme : IsScheme scheme) :
    IsStatement (.run (some arms))
      (.block [call, .fork branches (scheme ++ awaiting "return")] [])
  | use {name : Json} {imports : List Json} (hname : IsExpr name)
    (himports : ∀ j ∈ imports, IsQuoted j) :
    IsStatement .use (.object [("@use", name), ("import", .array imports)])
  | define {names : List Json} {body : List Outline} {statements : List Json}
    (hnames : ∀ j ∈ names, IsQuoted j) (hbody : AreStatements body statements) :
    IsStatement (.define body) (.object [("@def", .array names), ("val", .block statements [])])

/-- The branches of a fork: blocks, each with its condition if it has one. -/
inductive AreBranches : List (Arm Outline) → List Json → Prop where
  | nil : AreBranches [] []
  | cons {conditional : Bool} {body : List Outline} {arms : List (Arm Outline)}
    {statements branches : List Json} {members : List (String × Json)}
    (hbody : AreStatements body statements) (hcondition : IsCondition conditional members)
    (hbranches : AreBranches arms branches) :
    AreBranches (⟨conditional, body⟩ :: arms) (.block statements members :: branches)

/-- The statements of a block. -/
inductive AreStatements : List Outline → List Json → Prop where
  | nil : AreStatements [] []
  | cons {first : Outline} {others : List Outline} {statement : Json} {statements : List Json}
    (hfirst : IsStatement first statement) (hothers : AreStatements others statements) :
    AreStatements (first :: others) (statement :: statements)

end

/-- A program: a block, or a single fork, which may wait for input. -/
inductive IsProgram : List Outline → Json → Prop where
  | block {outlines : List Outline} {statements : List Json}
    (h : AreStatements outlines statements) : IsProgram outlines (.block statements [])
  | single {outline : Outline} {program : Json}
    (hshape : outline.shape = .fork ∨ outline.shape = .input) (h : IsStatement outline program) :
    IsProgram [outline] program

/-! ## One outline -/

/-- The keys of an object, in order. -/
def keys : Json → List String
  | .object members => members.map Prod.fst
  | _ => []

end Json

namespace Shape

/-- All shapes. -/
def all : List Shape :=
  [.fork, .input, .await, .once, .perform .act, .perform .hop, .perform .pop, .set, .run, .use,
   .define]

theorem mem_all (shape : Shape) : shape ∈ all := by
  cases shape with
  | perform verb => cases verb <;> decide
  | _ => decide

/-- The keys that statements of a shape have. -/
def keys : Shape → List (List String)
  | .fork => [["@fork"], ["@fork", "scheme"]]
  | .input => [["@fork", "await"], ["@fork", "scheme", "await"]]
  | .await => [["@do", "await"]]
  | .once => [["@do", "once"]]
  | .perform verb => [[verb.tag]]
  | .set => [["@set", "val"]]
  | .run => [["@do"]]
  | .use => [["@use", "import"]]
  | .define => [["@def", "val"]]

/-- The keys of a statement tell its shape. -/
theorem eq_of_keys {first second : Shape} {found : List String} (h : found ∈ first.keys)
    (h' : found ∈ second.keys) : first = second := by
  have hall : ∀ first ∈ all, ∀ second ∈ all, ∀ found ∈ first.keys, found ∈ second.keys →
      first = second := by decide
  exact hall first first.mem_all second second.mem_all found h h'

end Shape

namespace Json

theorem IsStatement.keys_mem {o : Outline} {j : Json} (h : IsStatement o j) :
    j.keys ∈ o.shape.keys := by
  cases h with
  | fork _ hscheme => cases hscheme <;> simp [Json.fork, keys, Outline.shape, Shape.keys]
  | input _ hscheme =>
    cases hscheme <;> simp [Json.fork, keys, awaiting, Outline.shape, Shape.keys]
  | _ => simp [Json.block, keys, Outline.shape, Shape.keys]

theorem branches_eq {branches branches' : List Json} {members members' : List (String × Json)}
    (h : Json.fork branches members = Json.fork branches' members') : branches = branches' := by
  cases h
  rfl

theorem statements_eq {statements statements' : List Json} {members members' : List (String × Json)}
    (h : Json.block statements members = Json.block statements' members') :
    statements = statements' := by
  cases h
  rfl

theorem IsCondition.unique {conditional conditional' : Bool} {members : List (String × Json)}
    (h : IsCondition conditional members) (h' : IsCondition conditional' members) :
    conditional = conditional' := by
  cases h with
  | none => cases h' with
    | none => rfl
  | some _ => cases h' with
    | some _ => rfl

mutual

/-- A statement has one outline only. -/
theorem IsStatement.unique {o o' : Outline} {j : Json} (h : IsStatement o j)
    (h' : IsStatement o' j) : o = o' := by
  have hshape : o.shape = o'.shape := Shape.eq_of_keys h.keys_mem h'.keys_mem
  generalize hj : j = j' at h'
  cases h with
  | fork hbranches hscheme =>
    cases h' with
    | fork hbranches' hscheme' =>
      cases hj
      rw [AreBranches.unique hbranches hbranches']
    | _ => cases hshape
  | input hbranches hscheme =>
    cases h' with
    | input hbranches' hscheme' =>
      obtain rfl := branches_eq hj
      rw [AreBranches.unique hbranches hbranches']
    | _ => cases hshape
  | await hbody =>
    cases h' with
    | await hbody' =>
      cases hj
      rw [AreStatements.unique hbody hbody']
    | _ => cases hshape
  | once hbody =>
    cases h' with
    | once hbody' =>
      cases hj
      rw [AreStatements.unique hbody hbody']
    | _ => cases hshape
  | perform verb =>
    cases h' with
    | perform verb' =>
      cases hshape
      rfl
    | _ => cases hshape
  | set =>
    cases h' with
    | set => rfl
    | _ => cases hshape
  | run =>
    cases h' with
    | run => rfl
    | handledRun => cases hj
    | _ => cases hshape
  | handledRun hcall hbranches hscheme =>
    cases h' with
    | handledRun hcall' hbranches' hscheme' =>
      have hforks := (List.cons.inj (statements_eq hj)).2
      obtain rfl := branches_eq (List.cons.inj hforks).1
      rw [AreBranches.unique hbranches hbranches']
    | run => cases hj
    | _ => cases hshape
  | use =>
    cases h' with
    | use => rfl
    | _ => cases hshape
  | define hnames hbody =>
    cases h' with
    | define hnames' hbody' =>
      cases hj
      rw [AreStatements.unique hbody hbody']
    | _ => cases hshape

theorem AreBranches.unique {arms arms' : List (Arm Outline)} {branches : List Json}
    (h : AreBranches arms branches) (h' : AreBranches arms' branches) : arms = arms' := by
  cases h with
  | nil =>
    cases h' with
    | nil => rfl
  | cons hbody hcondition hbranches =>
    cases h' with
    | cons hbody' hcondition' hbranches' =>
      rw [AreStatements.unique hbody hbody', hcondition.unique hcondition',
        AreBranches.unique hbranches hbranches']

theorem AreStatements.unique {outlines outlines' : List Outline} {statements : List Json}
    (h : AreStatements outlines statements) (h' : AreStatements outlines' statements) :
    outlines = outlines' := by
  cases h with
  | nil =>
    cases h' with
    | nil => rfl
  | cons hfirst hothers =>
    cases h' with
    | cons hfirst' hothers' =>
      rw [IsStatement.unique hfirst hfirst', AreStatements.unique hothers hothers']

end

theorem IsStatement.ne_block {o : Outline} {j : Json} (h : IsStatement o j)
    (hshape : o.shape = .fork ∨ o.shape = .input) (statements : List Json) :
    j ≠ .block statements [] := by
  rintro rfl
  have hkeys := h.keys_mem
  rcases hshape with hshape | hshape
  · simp [hshape, Json.block, keys, Shape.keys] at hkeys
  · simp [hshape, Json.block, keys, Shape.keys] at hkeys

/-- A program has one outline only. -/
theorem IsProgram.unique {outlines outlines' : List Outline} {j : Json} (h : IsProgram outlines j)
    (h' : IsProgram outlines' j) : outlines = outlines' := by
  generalize hj : j = j' at h'
  cases h with
  | block hbody =>
    cases h' with
    | block hbody' =>
      obtain rfl := statements_eq hj
      exact hbody.unique hbody'
    | single hshape' hstatement' => exact absurd hj.symm (hstatement'.ne_block hshape' _)
  | single hshape hstatement =>
    cases h' with
    | block hbody' => exact absurd hj (hstatement.ne_block hshape _)
    | single hshape' hstatement' =>
      subst hj
      rw [hstatement.unique hstatement']

end Json

end Dialogue
