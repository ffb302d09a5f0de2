import Dialogue.Proofs.Scope.Labels

/-!
# A walk in single steps

The walk that replaces a name under a limit, one node at a time and without a bound on its length.
A `Walker` keeps the nodes ahead of it on a stack. A step takes the first of them: if that node is
the name and the limit lasts, the replacement takes its place; the parts of what then stands there
are next. What was seen is kept as a list of labels, which determines a tree.

Each fact about a whole run follows from one about a step. If the replacement does not hold the name
inside, `Walker.due` tells at any time what will have been seen in the end: the labels of the tree
with its first occurrences of the name replaced. If it does, the name stays ahead until the limit is
used up.
-/

namespace Dialogue

/-! ## Parts -/

/-- The nodes right inside an expression. -/
def Expr.parts : Expr → List Node
  | .binary _ left right => [.expression left, .expression right]
  | .not operand => [.expression operand]
  | .call callee args => .expression callee :: args.map .expression
  | .member target property => [.expression target, .expression property]
  | .name x => [.identifier x]
  | .literal value => [.literal value]
  | .array elements => elements.map .expression
  | .object fields => fields.map fun field => .expression field.2
  | .spread elements => elements.map .expression

/-- The nodes right inside the target of an assignment. -/
def Target.parts : Target → List Node
  | .name x => [.identifier x]
  | .list elements => elements.map .expression
  | .edit root keys => .expression root :: keys.map .expression

/-- The nodes right inside a statement. -/
def Statement.parts : Statement → List Node
  | .fork choice => [.fork choice]
  | .input result choice => [.identifier result, .fork choice]
  | .await condition body => [.expression condition, .list body]
  | .once body => [.list body]
  | .perform _ value => [.expression value]
  | .set target value => target.parts ++ [.expression value]
  | .run name args result choice =>
    .expression name :: (args.map .expression ++ result.toList.map .identifier ++
      choice.toList.map .fork)
  | .use name imports => .expression name :: imports.map .literal
  | .define name params body => .identifier name :: (params.map .identifier ++ [.list body])

namespace Node

/-- The nodes right inside a node. -/
def parts : Node → List Node
  | .list statements => statements.map .statement
  | .statement s => s.parts
  | .fork choice =>
    (choice.scheme.getD []).map (fun field => .expression field.2) ++ choice.branches.map .branch
  | .branch arm => arm.condition.toList.map .expression ++ [.list arm.body]
  | .expression e => e.parts
  | .identifier _ => []
  | .literal _ => []

/-- A node and all nodes inside it. -/
def nodes : Node → List Node
  | .list statements => Script.nodes statements
  | .statement s => s.nodes
  | .fork choice => Fork.nodes choice
  | .branch arm => Branch.nodesOfList [arm]
  | .expression e => e.nodes
  | .identifier name => [.identifier name]
  | .literal value => [.literal value]

end Node

/-- A function that lists the nodes of each element in turn lists the nodes of a stack of them. -/
theorem flatMap_nodes_eq {α : Type} {node : α → Node} {nodesOf : List α → List Node}
    (hnil : nodesOf [] = [])
    (hcons : ∀ a others, nodesOf (a :: others) = (node a).nodes ++ nodesOf others)
    (elements : List α) : (elements.map node).flatMap Node.nodes = nodesOf elements := by
  induction elements with
  | nil => exact hnil.symm
  | cons a others ih => rw [List.map_cons, List.flatMap_cons, ih, hcons]

theorem Expr.flatMap_nodes (es : List Expr) :
    (es.map Node.expression).flatMap Node.nodes = Expr.nodesOfList es :=
  flatMap_nodes_eq rfl (fun _ _ => rfl) es

theorem Expr.flatMap_nodesOfFields (fields : List (String × Expr)) :
    (fields.map fun field => Node.expression field.2).flatMap Node.nodes =
      Expr.nodesOfFields fields :=
  flatMap_nodes_eq rfl (fun _ _ => rfl) fields

theorem Statement.flatMap_nodes (statements : List Statement) :
    (statements.map Node.statement).flatMap Node.nodes = Statement.nodesOfList statements :=
  flatMap_nodes_eq rfl (fun _ _ => rfl) statements

theorem Branch.flatMap_nodes (branches : List (Branch Statement)) :
    (branches.map Node.branch).flatMap Node.nodes = Branch.nodesOfList branches := by
  refine flatMap_nodes_eq rfl (fun arm others => ?_) branches
  simp only [Node.nodes, Branch.nodesOfList, List.append_nil]

theorem flatMap_nodes_identifier (names : List String) :
    (names.map Node.identifier).flatMap Node.nodes = names.map Node.identifier :=
  flatMap_nodes_eq rfl (fun _ _ => rfl) names

theorem flatMap_nodes_literal (values : List Literal) :
    (values.map Node.literal).flatMap Node.nodes = values.map Node.literal :=
  flatMap_nodes_eq rfl (fun _ _ => rfl) values

theorem Target.flatMap_nodes (target : Target) :
    target.parts.flatMap Node.nodes = target.nodes := by
  cases target with
  | name x => rfl
  | list elements => exact Expr.flatMap_nodes elements
  | edit root keys =>
    rw [Target.parts, List.flatMap_cons, Expr.flatMap_nodes]
    rfl

theorem Expr.nodes_eq (e : Expr) : e.nodes = .expression e :: e.parts.flatMap Node.nodes := by
  cases e <;>
    simp [Expr.nodes, Expr.parts, Expr.flatMap_nodes, Expr.flatMap_nodesOfFields, Node.nodes]

theorem Statement.nodes_eq (s : Statement) :
    s.nodes = .statement s :: s.parts.flatMap Node.nodes := by
  cases s with
  | run name args result choice =>
    cases choice <;>
      simp [Statement.nodes, Statement.parts, Node.nodes, Expr.flatMap_nodes,
        flatMap_nodes_identifier]
  | _ =>
    simp [Statement.nodes, Statement.parts, Node.nodes, Target.flatMap_nodes, flatMap_nodes_literal,
      flatMap_nodes_identifier, Script.nodes]

/-- A node comes before the nodes inside it, which are those of its parts, in order. -/
theorem Node.nodes_eq (node : Node) : node.nodes = node :: node.parts.flatMap Node.nodes := by
  cases node with
  | list statements => rw [Node.nodes, Node.parts, Statement.flatMap_nodes]; rfl
  | statement s => exact s.nodes_eq
  | fork choice =>
    obtain ⟨scheme, branches⟩ := choice
    cases scheme <;>
      simp [Node.nodes, Node.parts, Fork.nodes, Expr.nodesOfScheme, Expr.flatMap_nodesOfFields,
        Branch.flatMap_nodes]
  | branch arm =>
    obtain ⟨condition, body⟩ := arm
    cases condition <;>
      simp [Node.nodes, Node.parts, Branch.nodesOfList, Expr.nodesOfOption, Script.nodes]
  | expression e => exact e.nodes_eq
  | identifier name => rfl
  | literal value => rfl

/-! ## Occurrences of a name -/

/-- Whether a node is an expression that is a given name. -/
def Node.isName (name : String) : Node → Bool
  | .expression e => e.isName name
  | _ => false

/-- How many of the nodes are a name. -/
def occurrences (name : String) (nodes : List Node) : Nat := nodes.countP (Node.isName name)

/-- The labels of nodes, but other labels in place of the first occurrences of a name. An occurrence
is a node and the identifier inside it. -/
def replaceFirst (name : String) (others : List Label) : Nat → List Node → List Label
  | count + 1, node :: inner :: nodes =>
    if node.isName name then others ++ replaceFirst name others count nodes
    else node.label :: replaceFirst name others (count + 1) (inner :: nodes)
  | _, nodes => labels nodes

section

variable {name : String} {others : List Label}

theorem Node.isName_name : (Node.expression (.name name)).isName name = true :=
  Expr.isName_eq_true_iff.2 rfl

theorem Node.nodes_of_isName {node : Node} (h : node.isName name = true) :
    node.nodes = [.expression (.name name), .identifier name] := by
  cases node with
  | expression e =>
    obtain rfl : e = .name name := Expr.isName_eq_true_iff.1 h
    rfl
  | _ => cases h

theorem occurrences_cons (node : Node) (nodes : List Node) :
    occurrences name (node :: nodes) =
      occurrences name nodes + if node.isName name then 1 else 0 :=
  List.countP_cons

theorem occurrences_name (nodes : List Node) :
    occurrences name (.expression (.name name) :: .identifier name :: nodes) =
      occurrences name nodes + 1 := by
  rw [occurrences_cons, occurrences_cons, if_pos Node.isName_name]
  rfl

theorem occurrences_append (before after : List Node) :
    occurrences name (before ++ after) = occurrences name before + occurrences name after :=
  List.countP_append

theorem replaceFirst_zero (nodes : List Node) :
    replaceFirst name others 0 nodes = labels nodes := by
  unfold replaceFirst
  rfl

theorem replaceFirst_cons {node : Node} (h : node.isName name = false) (count : Nat)
    (nodes : List Node) :
    replaceFirst name others count (node :: nodes) =
      node.label :: replaceFirst name others count nodes := by
  cases count with
  | zero => rw [replaceFirst_zero, replaceFirst_zero, labels_cons]
  | succ count =>
    cases nodes with
    | nil => rfl
    | cons inner nodes => rw [replaceFirst, h, if_neg Bool.false_ne_true]

theorem replaceFirst_succ (count : Nat) (nodes : List Node) :
    replaceFirst name others (count + 1) (.expression (.name name) :: .identifier name :: nodes) =
      others ++ replaceFirst name others count nodes := by
  rw [replaceFirst, if_pos Node.isName_name]

theorem replaceFirst_append {before : List Node} (h : occurrences name before = 0) (count : Nat)
    (after : List Node) :
    replaceFirst name others count (before ++ after) =
      labels before ++ replaceFirst name others count after := by
  induction before with
  | nil => rfl
  | cons node before ih =>
    rw [occurrences_cons] at h
    by_cases hnode : node.isName name = true
    · rw [if_pos hnode] at h
      exact absurd h (Nat.succ_ne_zero _)
    · rw [if_neg hnode] at h
      rw [List.cons_append, replaceFirst_cons (Bool.of_not_eq_true hnode), ih h, labels_cons,
        List.cons_append]

end

/-! ## Steps -/

/-- A walk on its way: the replacements it may still do and those it has done, the labels of what it
has seen, and the nodes ahead of it. -/
structure Walker where
  left : Nat
  replaced : Nat
  seen : List Label
  stack : List Node

namespace Walker

/-- A walk that sets out. -/
def start (limit : Nat) (node : Node) : Walker := ⟨limit, 0, [], [node]⟩

/-- Sees a node and goes on to its parts. -/
def see (walker : Walker) (node : Node) (stack : List Node) : Walker :=
  { walker with seen := walker.seen ++ [node.label], stack := node.parts ++ stack }

/-- Visits the next node, which a replacement may take the place of. -/
def step (name : String) (replacement : Expr) (walker : Walker) : Option Walker :=
  match walker.stack with
  | [] => none
  | node :: stack =>
    if node.isName name ∧ 0 < walker.left then
      some ({ walker with left := walker.left - 1, replaced := walker.replaced + 1 }.see
        (.expression replacement) stack)
    else some (walker.see node stack)

/-- Visits a number of nodes. -/
def advance (name : String) (replacement : Expr) : Nat → Walker → Option Walker
  | 0, walker => some walker
  | count + 1, walker => (walker.step name replacement).bind (advance name replacement count)

/-- The nodes ahead, as they stand before they are visited. -/
def ahead (walker : Walker) : List Node := walker.stack.flatMap Node.nodes

variable {name : String} {replacement : Expr} {walker next : Walker}

theorem ahead_start (limit : Nat) (node : Node) : (start limit node).ahead = node.nodes :=
  List.append_nil node.nodes

theorem ahead_of_stack {node : Node} {stack : List Node} (h : walker.stack = node :: stack) :
    walker.ahead = node.nodes ++ stack.flatMap Node.nodes := by
  rw [ahead, h, List.flatMap_cons]

theorem ahead_see (node : Node) (stack : List Node) :
    (walker.see node stack).ahead =
      node.parts.flatMap Node.nodes ++ stack.flatMap Node.nodes :=
  List.flatMap_append

/-- A step sees the next node as it is, or replaces the name. -/
theorem step_cases (h : walker.step name replacement = some next) :
    (∃ node, (node.isName name = true → walker.left = 0) ∧ walker.ahead = node :: next.ahead ∧
      next.left = walker.left ∧ next.replaced = walker.replaced ∧
      next.seen = walker.seen ++ [node.label]) ∨
    (∃ rest, 0 < walker.left ∧
      walker.ahead = .expression (.name name) :: .identifier name :: rest ∧
      next.ahead = replacement.parts.flatMap Node.nodes ++ rest ∧
      next.left = walker.left - 1 ∧ next.replaced = walker.replaced + 1 ∧
      next.seen = walker.seen ++ [.expression replacement.form]) := by
  unfold step at h
  split at h
  · cases h
  · rename_i node stack hstack
    by_cases hname : node.isName name = true ∧ 0 < walker.left
    · rw [if_pos hname] at h
      cases h
      refine Or.inr ⟨stack.flatMap Node.nodes, hname.2, ?_, ahead_see _ _, rfl, rfl, rfl⟩
      rw [ahead_of_stack hstack, Node.nodes_of_isName hname.1]
      rfl
    · rw [if_neg hname] at h
      cases h
      refine Or.inl ⟨node, ?_, ?_, rfl, rfl, rfl⟩
      · intro hnode
        exact Nat.eq_zero_of_not_pos fun hleft => hname ⟨hnode, hleft⟩
      · rw [ahead_of_stack hstack, ahead_see, node.nodes_eq, List.cons_append]

/-! ## Runs -/

theorem advance_add (first second : Nat) (walker : Walker) :
    walker.advance name replacement (first + second) =
      (walker.advance name replacement first).bind (advance name replacement second) := by
  induction first generalizing walker with
  | zero => rw [Nat.zero_add, advance, Option.bind_some]
  | succ first ih =>
    rw [Nat.succ_add, advance, advance, Option.bind_assoc]
    congr 1
    funext next
    exact ih next

/-- What each step preserves, a run preserves. -/
theorem advance_preserves {P : Walker → Prop}
    (hstep : ∀ {walker next : Walker}, walker.step name replacement = some next →
      P walker → P next) {count : Nat} {walker next : Walker}
    (h : walker.advance name replacement count = some next) (hstart : P walker) : P next := by
  induction count generalizing walker with
  | zero =>
    cases h
    exact hstart
  | succ count ih =>
    obtain ⟨middle, hmiddle, hrest⟩ := Option.bind_eq_some_iff.1 h
    exact ih hrest (hstep hmiddle hstart)

/-- Each replacement takes one off the limit. -/
theorem left_add_replaced_of_advance {count : Nat}
    (h : walker.advance name replacement count = some next) :
    next.left + next.replaced = walker.left + walker.replaced := by
  refine advance_preserves (P := fun other =>
    other.left + other.replaced = walker.left + walker.replaced) (fun hstep hinv => ?_) h rfl
  rcases step_cases hstep with ⟨node, -, -, hleft, hreplaced, -⟩ |
    ⟨rest, hpos, -, -, hleft, hreplaced, -⟩
  · rw [hleft, hreplaced, hinv]
  · rw [hleft, hreplaced, ← hinv]
    omega

/-- What will have been seen in the end, if the walk does not find the name inside the
replacement. -/
def due (name : String) (replacement : Expr) (walker : Walker) : List Label :=
  walker.seen ++ replaceFirst name (labels replacement.nodes)
    (min walker.left (occurrences name walker.ahead)) walker.ahead

theorem due_of_step (hclean : occurrences name (replacement.parts.flatMap Node.nodes) = 0)
    (h : walker.step name replacement = some next) :
    next.due name replacement = walker.due name replacement := by
  unfold due
  rcases step_cases h with ⟨node, hname, hahead, hleft, -, hseen⟩ |
    ⟨rest, hpos, hahead, hnext, hleft, -, hseen⟩
  · rw [hahead, hleft, hseen, occurrences_cons, List.append_assoc, List.singleton_append]
    by_cases hnode : node.isName name = true
    · rw [hname hnode, Nat.zero_min, Nat.zero_min, replaceFirst_zero, replaceFirst_zero,
        labels_cons]
    · rw [if_neg hnode, Nat.add_zero, replaceFirst_cons (Bool.of_not_eq_true hnode)]
  · have hmin : min walker.left (occurrences name rest + 1) =
        min (walker.left - 1) (occurrences name rest) + 1 := by
      omega
    rw [hahead, hnext, hleft, hseen, occurrences_append, hclean, Nat.zero_add,
      replaceFirst_append hclean, occurrences_name, hmin, replaceFirst_succ, replacement.nodes_eq,
      labels_cons]
    simp

theorem left_sub_of_step (hclean : occurrences name (replacement.parts.flatMap Node.nodes) = 0)
    (h : walker.step name replacement = some next) :
    next.left - occurrences name next.ahead = walker.left - occurrences name walker.ahead := by
  rcases step_cases h with ⟨node, hname, hahead, hleft, -, -⟩ |
    ⟨rest, hpos, hahead, hnext, hleft, -, -⟩
  · rw [hahead, hleft, occurrences_cons]
    by_cases hnode : node.isName name = true
    · rw [hname hnode, Nat.zero_sub, Nat.zero_sub]
    · rw [if_neg hnode, Nat.add_zero]
  · rw [hahead, hnext, hleft, occurrences_append, hclean, occurrences_name]
    omega

/-- While the replacement brings the name up again, it is still ahead or the limit is used up. -/
theorem pending_of_step (hnested : 0 < occurrences name (replacement.parts.flatMap Node.nodes))
    (h : walker.step name replacement = some next)
    (hpending : walker.left = 0 ∨ 0 < occurrences name walker.ahead) :
    next.left = 0 ∨ 0 < occurrences name next.ahead := by
  rcases step_cases h with ⟨node, hname, hahead, hleft, -, -⟩ |
    ⟨rest, hpos, hahead, hnext, hleft, -, -⟩
  · rw [hahead, occurrences_cons] at hpending
    rw [hleft]
    by_cases hnode : node.isName name = true
    · exact Or.inl (hname hnode)
    · rwa [if_neg hnode, Nat.add_zero] at hpending
  · rw [hnext, occurrences_append]
    exact Or.inr (Nat.add_pos_left hnested _)

section

variable {limit count : Nat} {node : Node}

/-- A replacement without the name inside goes to the first occurrences, as many as the limit
allows, and nowhere else. -/
theorem advance_of_clean (hclean : occurrences name (replacement.parts.flatMap Node.nodes) = 0)
    (h : (start limit node).advance name replacement count = some next) (hend : next.stack = []) :
    next.seen = replaceFirst name (labels replacement.nodes)
        (min limit (occurrences name node.nodes)) node.nodes ∧
      next.left = limit - min limit (occurrences name node.nodes) := by
  have hahead : next.ahead = [] := by rw [ahead, hend, List.flatMap_nil]
  constructor
  · have hdue : next.due name replacement = (start limit node).due name replacement :=
      advance_preserves (fun hstep hinv => (due_of_step hclean hstep).trans hinv) h rfl
    unfold due at hdue
    rw [ahead_start, hahead, show occurrences name [] = 0 from rfl, Nat.min_zero,
      replaceFirst_zero, labels_nil, List.append_nil] at hdue
    exact hdue
  · have hleft : next.left - occurrences name next.ahead =
        (start limit node).left - occurrences name (start limit node).ahead :=
      advance_preserves (fun hstep hinv => (left_sub_of_step hclean hstep).trans hinv) h rfl
    rw [ahead_start, hahead] at hleft
    rw [← Nat.sub_eq_sub_min]
    exact hleft

/-- A replacement with the name inside uses up the limit, once there is an occurrence. -/
theorem advance_of_nested (hnested : 0 < occurrences name (replacement.parts.flatMap Node.nodes))
    (h : (start limit node).advance name replacement count = some next) (hend : next.stack = [])
    (hpos : 0 < occurrences name node.nodes) : next.left = 0 := by
  have hstart : (start limit node).left = 0 ∨ 0 < occurrences name (start limit node).ahead := by
    rw [ahead_start]
    exact Or.inr hpos
  rcases advance_preserves (fun hstep hinv => pending_of_step hnested hstep hinv) h hstart with
    hleft | hahead
  · exact hleft
  · rw [ahead, hend] at hahead
    exact absurd hahead (Nat.lt_irrefl 0)

end

end Walker

end Dialogue
