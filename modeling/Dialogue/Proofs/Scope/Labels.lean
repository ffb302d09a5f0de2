import Dialogue.Script.Node

/-!
# Labels of a walk

The nodes of a tree hold the parts inside them. The *label* of a node is what it says without
those parts: its form, how many parts it has, and the keys, operators and constants that belong to
it. Each label tells how many parts follow, so the labels of all nodes, in the order of the walk,
determine the tree: `Fork.eq_of_labels` and `Script.eq_of_labels`.
-/

namespace Dialogue

/-! ## Labels -/

/-- The form of an expression, without the expressions inside it. -/
inductive Expr.Form where
  | binary (op : Operator)
  | not
  | call (args : Nat)
  | member
  | name
  | literal
  | array (elements : Nat)
  | object (keys : List String)
  | spread (elements : Nat)
  deriving DecidableEq

/-- The form of an expression. -/
@[simp] def Expr.form : Expr → Expr.Form
  | .binary op _ _ => .binary op
  | .not _ => .not
  | .call _ args => .call args.length
  | .member _ _ => .member
  | .name _ => .name
  | .literal _ => .literal
  | .array elements => .array elements.length
  | .object fields => .object (fields.map Prod.fst)
  | .spread elements => .spread elements.length

/-- The form of the target of an assignment. -/
inductive Target.Form where
  | name
  | list (elements : Nat)
  | edit (keys : Nat)
  deriving DecidableEq

/-- The form of a target. -/
def Target.form : Target → Target.Form
  | .name _ => .name
  | .list elements => .list elements.length
  | .edit _ keys => .edit keys.length

/-- The form of a statement, without what is inside it. -/
inductive Statement.Form where
  | fork
  | input
  | await
  | once
  | perform (verb : Verb)
  | set (target : Target.Form)
  | run (args : Nat) (result branches : Bool)
  | use (imports : Nat)
  | define (params : Nat)
  deriving DecidableEq

/-- The form of a statement. -/
@[simp] def Statement.form : Statement → Statement.Form
  | .fork _ => .fork
  | .input _ _ => .input
  | .await _ _ => .await
  | .once _ => .once
  | .perform verb _ => .perform verb
  | .set target _ => .set target.form
  | .run _ args result choice => .run args.length result.isSome choice.isSome
  | .use _ imports => .use imports.length
  | .define _ params _ => .define params.length

/-- What a node says by itself. -/
inductive Label where
  | list (statements : Nat)
  | statement (form : Statement.Form)
  | fork (keys : Option (List String)) (branches : Nat)
  | branch (conditional : Bool)
  | expression (form : Expr.Form)
  | identifier (name : String)
  | literal (value : Literal)
  deriving DecidableEq

/-- The label of a node. -/
@[simp] def Node.label : Node → Label
  | .list statements => .list statements.length
  | .statement s => .statement s.form
  | .fork choice => .fork (choice.scheme.map (List.map Prod.fst)) choice.branches.length
  | .branch arm => .branch arm.condition.isSome
  | .expression e => .expression e.form
  | .identifier name => .identifier name
  | .literal value => .literal value

/-- The labels of nodes, in order. -/
def labels (nodes : List Node) : List Label := nodes.map Node.label

/-- The labels of a fork, in the order of the walk. -/
def Fork.labels (fork : Fork Statement) : List Label := Dialogue.labels (Fork.nodes fork)

@[simp] theorem labels_nil : labels [] = [] := rfl

@[simp] theorem labels_cons (node : Node) (nodes : List Node) :
    labels (node :: nodes) = node.label :: labels nodes := rfl

@[simp] theorem labels_append (before after : List Node) :
    labels (before ++ after) = labels before ++ labels after := List.map_append

/-! ## Labels determine a fork -/

section

variable {rest rest' : List Label}

theorem Expr.form_eq_of_labels {e e' : Expr}
    (h : labels e.nodes ++ rest = labels e'.nodes ++ rest') : e.form = e'.form := by
  have hhead (e : Expr) : ∃ inner, labels e.nodes = .expression e.form :: inner := by
    cases e <;> exact ⟨_, rfl⟩
  obtain ⟨inner, hinner⟩ := hhead e
  obtain ⟨inner', hinner'⟩ := hhead e'
  rw [hinner, hinner'] at h
  exact Label.expression.inj (List.cons.inj h).1

theorem Statement.form_eq_of_labels {s s' : Statement}
    (h : labels s.nodes ++ rest = labels s'.nodes ++ rest') : s.form = s'.form := by
  have hhead (s : Statement) : ∃ inner, labels s.nodes = .statement s.form :: inner := by
    cases s with
    | run name args result choice => cases choice <;> exact ⟨_, rfl⟩
    | _ => exact ⟨_, rfl⟩
  obtain ⟨inner, hinner⟩ := hhead s
  obtain ⟨inner', hinner'⟩ := hhead s'
  rw [hinner, hinner'] at h
  exact Label.statement.inj (List.cons.inj h).1

end

mutual

/-- Where the labels of an expression end and what they stand for can be read off the labels. -/
theorem Expr.eq_of_labels : ∀ (e e' : Expr) {rest rest' : List Label},
    labels e.nodes ++ rest = labels e'.nodes ++ rest' → e = e' ∧ rest = rest'
  | .binary op left right, e', rest, rest', h => by
    have hform := Expr.form_eq_of_labels h
    cases e' with
    | binary op' left' right' =>
      obtain rfl := Expr.Form.binary.inj hform
      simp only [Expr.nodes, labels_cons, labels_append, List.cons_append, List.append_assoc,
        List.cons.injEq] at h
      obtain ⟨rfl, hright⟩ := Expr.eq_of_labels left left' h.2
      obtain ⟨rfl, rfl⟩ := Expr.eq_of_labels right right' hright
      exact ⟨rfl, rfl⟩
    | _ => cases hform
  | .not operand, e', rest, rest', h => by
    have hform := Expr.form_eq_of_labels h
    cases e' with
    | not operand' =>
      simp only [Expr.nodes, labels_cons, List.cons_append, List.cons.injEq] at h
      obtain ⟨rfl, rfl⟩ := Expr.eq_of_labels operand operand' h.2
      exact ⟨rfl, rfl⟩
    | _ => cases hform
  | .call callee args, e', rest, rest', h => by
    have hform := Expr.form_eq_of_labels h
    cases e' with
    | call callee' args' =>
      simp only [Expr.nodes, labels_cons, labels_append, List.cons_append, List.append_assoc,
        List.cons.injEq] at h
      obtain ⟨rfl, hargs⟩ := Expr.eq_of_labels callee callee' h.2
      obtain ⟨rfl, rfl⟩ := Expr.eq_of_labelsOfList args args' (Expr.Form.call.inj hform) hargs
      exact ⟨rfl, rfl⟩
    | _ => cases hform
  | .member target property, e', rest, rest', h => by
    have hform := Expr.form_eq_of_labels h
    cases e' with
    | member target' property' =>
      simp only [Expr.nodes, labels_cons, labels_append, List.cons_append, List.append_assoc,
        List.cons.injEq] at h
      obtain ⟨rfl, hproperty⟩ := Expr.eq_of_labels target target' h.2
      obtain ⟨rfl, rfl⟩ := Expr.eq_of_labels property property' hproperty
      exact ⟨rfl, rfl⟩
    | _ => cases hform
  | .name x, e', rest, rest', h => by
    have hform := Expr.form_eq_of_labels h
    cases e' with
    | name x' => simpa [Expr.nodes] using h
    | _ => cases hform
  | .literal value, e', rest, rest', h => by
    have hform := Expr.form_eq_of_labels h
    cases e' with
    | literal value' => simpa [Expr.nodes] using h
    | _ => cases hform
  | .array elements, e', rest, rest', h => by
    have hform := Expr.form_eq_of_labels h
    cases e' with
    | array elements' =>
      simp only [Expr.nodes, labels_cons, List.cons_append, List.cons.injEq] at h
      obtain ⟨rfl, rfl⟩ :=
        Expr.eq_of_labelsOfList elements elements' (Expr.Form.array.inj hform) h.2
      exact ⟨rfl, rfl⟩
    | _ => cases hform
  | .object fields, e', rest, rest', h => by
    have hform := Expr.form_eq_of_labels h
    cases e' with
    | object fields' =>
      simp only [Expr.nodes, labels_cons, List.cons_append, List.cons.injEq] at h
      obtain ⟨rfl, rfl⟩ :=
        Expr.eq_of_labelsOfFields fields fields' (Expr.Form.object.inj hform) h.2
      exact ⟨rfl, rfl⟩
    | _ => cases hform
  | .spread elements, e', rest, rest', h => by
    have hform := Expr.form_eq_of_labels h
    cases e' with
    | spread elements' =>
      simp only [Expr.nodes, labels_cons, List.cons_append, List.cons.injEq] at h
      obtain ⟨rfl, rfl⟩ :=
        Expr.eq_of_labelsOfList elements elements' (Expr.Form.spread.inj hform) h.2
      exact ⟨rfl, rfl⟩
    | _ => cases hform

theorem Expr.eq_of_labelsOfList : ∀ (es es' : List Expr) {rest rest' : List Label},
    es.length = es'.length →
    labels (Expr.nodesOfList es) ++ rest = labels (Expr.nodesOfList es') ++ rest' →
    es = es' ∧ rest = rest'
  | [], [], _, _, _, h => ⟨rfl, h⟩
  | e :: es, e' :: es', rest, rest', hlength, h => by
    simp only [Expr.nodesOfList, labels_append, List.append_assoc] at h
    obtain ⟨rfl, hes⟩ := Expr.eq_of_labels e e' h
    obtain ⟨rfl, rfl⟩ := Expr.eq_of_labelsOfList es es' (Nat.succ.inj hlength) hes
    exact ⟨rfl, rfl⟩

theorem Expr.eq_of_labelsOfFields : ∀ (fields fields' : List (String × Expr))
    {rest rest' : List Label}, fields.map Prod.fst = fields'.map Prod.fst →
    labels (Expr.nodesOfFields fields) ++ rest = labels (Expr.nodesOfFields fields') ++ rest' →
    fields = fields' ∧ rest = rest'
  | [], [], _, _, _, h => ⟨rfl, h⟩
  | (key, e) :: fields, (key', e') :: fields', rest, rest', hkeys, h => by
    simp only [Expr.nodesOfFields, labels_append, List.append_assoc] at h
    simp only [List.map_cons, List.cons.injEq] at hkeys
    obtain ⟨rfl, hothers⟩ := hkeys
    obtain ⟨rfl, hfields⟩ := Expr.eq_of_labels e e' h
    obtain ⟨rfl, rfl⟩ := Expr.eq_of_labelsOfFields fields fields' hothers hfields
    exact ⟨rfl, rfl⟩

end

theorem Target.eq_of_labels {target target' : Target} {rest rest' : List Label}
    (hform : target.form = target'.form)
    (h : labels target.nodes ++ rest = labels target'.nodes ++ rest') :
    target = target' ∧ rest = rest' := by
  cases target with
  | name x =>
    cases target' with
    | name x' => simpa [Target.nodes] using h
    | _ => simp [Target.form] at hform
  | list elements =>
    cases target' with
    | list elements' =>
      obtain ⟨rfl, rfl⟩ := Expr.eq_of_labelsOfList elements elements' (Target.Form.list.inj hform) h
      exact ⟨rfl, rfl⟩
    | _ => simp [Target.form] at hform
  | edit root keys =>
    cases target' with
    | edit root' keys' =>
      simp only [Target.nodes, labels_append, List.append_assoc] at h
      obtain ⟨rfl, hkeys⟩ := Expr.eq_of_labels root root' h
      obtain ⟨rfl, rfl⟩ := Expr.eq_of_labelsOfList keys keys' (Target.Form.edit.inj hform) hkeys
      exact ⟨rfl, rfl⟩
    | _ => simp [Target.form] at hform

theorem Expr.eq_of_labelsOfOption {condition condition' : Option Expr} {rest rest' : List Label}
    (hsome : condition.isSome = condition'.isSome)
    (h : labels (Expr.nodesOfOption condition) ++ rest =
      labels (Expr.nodesOfOption condition') ++ rest') :
    condition = condition' ∧ rest = rest' := by
  cases condition with
  | none =>
    cases condition' with
    | none => exact ⟨rfl, h⟩
    | some e' => cases hsome
  | some e =>
    cases condition' with
    | none => cases hsome
    | some e' =>
      obtain ⟨rfl, rfl⟩ := Expr.eq_of_labels e e' h
      exact ⟨rfl, rfl⟩

theorem Expr.eq_of_labelsOfScheme {scheme scheme' : Option (List (String × Expr))}
    {rest rest' : List Label}
    (hkeys : scheme.map (List.map Prod.fst) = scheme'.map (List.map Prod.fst))
    (h : labels (Expr.nodesOfScheme scheme) ++ rest =
      labels (Expr.nodesOfScheme scheme') ++ rest') :
    scheme = scheme' ∧ rest = rest' := by
  cases scheme with
  | none =>
    cases scheme' with
    | none => exact ⟨rfl, h⟩
    | some fields' => cases hkeys
  | some fields =>
    cases scheme' with
    | none => cases hkeys
    | some fields' =>
      obtain ⟨rfl, rfl⟩ := Expr.eq_of_labelsOfFields fields fields' (Option.some.inj hkeys) h
      exact ⟨rfl, rfl⟩

/-- Nodes with nothing inside them can be read off their labels, given their number. -/
theorem eq_of_labels_map {α : Type} (node : α → Node)
    (hnode : Function.Injective (Node.label ∘ node)) {values values' : List α}
    {rest rest' : List Label} (hlength : values.length = values'.length)
    (h : labels (values.map node) ++ rest = labels (values'.map node) ++ rest') :
    values = values' ∧ rest = rest' := by
  unfold labels at h
  rw [List.map_map, List.map_map] at h
  obtain ⟨hvalues, hrest⟩ := List.append_inj h (by simpa using hlength)
  exact ⟨(List.map_inj_right fun _ _ heq => hnode heq).1 hvalues, hrest⟩

theorem eq_of_labels_identifier {names names' : List String} {rest rest' : List Label}
    (hlength : names.length = names'.length)
    (h : labels (names.map Node.identifier) ++ rest =
      labels (names'.map Node.identifier) ++ rest') :
    names = names' ∧ rest = rest' :=
  eq_of_labels_map Node.identifier (fun _ _ heq => Label.identifier.inj heq) hlength h

theorem eq_of_labels_literal {imports imports' : List Literal} {rest rest' : List Label}
    (hlength : imports.length = imports'.length)
    (h : labels (imports.map Node.literal) ++ rest = labels (imports'.map Node.literal) ++ rest') :
    imports = imports' ∧ rest = rest' :=
  eq_of_labels_map Node.literal (fun _ _ heq => Label.literal.inj heq) hlength h

/-- A result can be read off its label, given whether there is one. -/
theorem eq_of_labels_result {result result' : Option String} {rest rest' : List Label}
    (hsome : result.isSome = result'.isSome)
    (h : labels (result.toList.map Node.identifier) ++ rest =
      labels (result'.toList.map Node.identifier) ++ rest') :
    result = result' ∧ rest = rest' := by
  cases result with
  | none =>
    cases result' with
    | none => exact ⟨rfl, h⟩
    | some x' => cases hsome
  | some x =>
    cases result' with
    | none => cases hsome
    | some x' => simpa using h

mutual

theorem Statement.eq_of_labels : ∀ (s s' : Statement) {rest rest' : List Label},
    labels s.nodes ++ rest = labels s'.nodes ++ rest' → s = s' ∧ rest = rest'
  | .fork choice, s', rest, rest', h => by
    have hform := Statement.form_eq_of_labels h
    cases s' with
    | fork choice' =>
      simp only [Statement.nodes, labels_cons, List.cons_append, List.cons.injEq] at h
      obtain ⟨rfl, rfl⟩ := Fork.eq_of_labels_append choice choice' h.2
      exact ⟨rfl, rfl⟩
    | _ => cases hform
  | .input result choice, s', rest, rest', h => by
    have hform := Statement.form_eq_of_labels h
    cases s' with
    | input result' choice' =>
      simp only [Statement.nodes, labels_cons, List.cons_append, List.cons.injEq, Node.label,
        Label.identifier.injEq] at h
      obtain ⟨-, rfl, h⟩ := h
      obtain ⟨rfl, rfl⟩ := Fork.eq_of_labels_append choice choice' h
      exact ⟨rfl, rfl⟩
    | _ => cases hform
  | .await condition body, s', rest, rest', h => by
    have hform := Statement.form_eq_of_labels h
    cases s' with
    | await condition' body' =>
      simp only [Statement.nodes, labels_cons, labels_append, List.cons_append, List.append_assoc,
        List.cons.injEq] at h
      obtain ⟨rfl, hbody⟩ := Expr.eq_of_labels condition condition' h.2
      simp only [List.cons.injEq, Node.label, Label.list.injEq] at hbody
      obtain ⟨rfl, rfl⟩ := Statement.eq_of_labelsOfList body body' hbody.1 hbody.2
      exact ⟨rfl, rfl⟩
    | _ => cases hform
  | .once body, s', rest, rest', h => by
    have hform := Statement.form_eq_of_labels h
    cases s' with
    | once body' =>
      simp only [Statement.nodes, labels_cons, List.cons_append, List.cons.injEq, Node.label,
        Label.list.injEq] at h
      obtain ⟨rfl, rfl⟩ := Statement.eq_of_labelsOfList body body' h.2.1 h.2.2
      exact ⟨rfl, rfl⟩
    | _ => cases hform
  | .perform verb value, s', rest, rest', h => by
    have hform := Statement.form_eq_of_labels h
    cases s' with
    | perform verb' value' =>
      obtain rfl := Statement.Form.perform.inj hform
      simp only [Statement.nodes, labels_cons, List.cons_append, List.cons.injEq] at h
      obtain ⟨rfl, rfl⟩ := Expr.eq_of_labels value value' h.2
      exact ⟨rfl, rfl⟩
    | _ => cases hform
  | .set target value, s', rest, rest', h => by
    have hform := Statement.form_eq_of_labels h
    cases s' with
    | set target' value' =>
      simp only [Statement.nodes, labels_cons, labels_append, List.cons_append, List.append_assoc,
        List.cons.injEq] at h
      obtain ⟨rfl, hvalue⟩ := Target.eq_of_labels (Statement.Form.set.inj hform) h.2
      obtain ⟨rfl, rfl⟩ := Expr.eq_of_labels value value' hvalue
      exact ⟨rfl, rfl⟩
    | _ => cases hform
  | .run name args result none, s', rest, rest', h => by
    have hform := Statement.form_eq_of_labels h
    cases s' with
    | run name' args' result' choice' =>
      simp only [Statement.form, Statement.Form.run.injEq] at hform
      obtain ⟨hlength, hresult, hchoice⟩ := hform
      cases choice' with
      | none =>
        simp only [Statement.nodes, labels_cons, labels_append, List.cons_append,
          List.append_assoc, List.cons.injEq] at h
        obtain ⟨rfl, hargs⟩ := Expr.eq_of_labels name name' h.2
        obtain ⟨rfl, hrest⟩ := Expr.eq_of_labelsOfList args args' hlength hargs
        obtain ⟨rfl, rfl⟩ := eq_of_labels_result hresult hrest
        exact ⟨rfl, rfl⟩
      | some choice' => cases hchoice
    | _ => cases hform
  | .run name args result (some choice), s', rest, rest', h => by
    have hform := Statement.form_eq_of_labels h
    cases s' with
    | run name' args' result' choice' =>
      simp only [Statement.form, Statement.Form.run.injEq] at hform
      obtain ⟨hlength, hresult, hchoice⟩ := hform
      cases choice' with
      | none => cases hchoice
      | some choice' =>
        simp only [Statement.nodes, labels_cons, labels_append, List.cons_append,
          List.append_assoc, List.cons.injEq] at h
        obtain ⟨rfl, hargs⟩ := Expr.eq_of_labels name name' h.2
        obtain ⟨rfl, hrest⟩ := Expr.eq_of_labelsOfList args args' hlength hargs
        obtain ⟨rfl, hfork⟩ := eq_of_labels_result hresult hrest
        obtain ⟨rfl, rfl⟩ := Fork.eq_of_labels_append choice choice' hfork
        exact ⟨rfl, rfl⟩
    | _ => cases hform
  | .use name imports, s', rest, rest', h => by
    have hform := Statement.form_eq_of_labels h
    cases s' with
    | use name' imports' =>
      simp only [Statement.nodes, labels_cons, labels_append, List.cons_append, List.append_assoc,
        List.cons.injEq] at h
      obtain ⟨rfl, himports⟩ := Expr.eq_of_labels name name' h.2
      obtain ⟨rfl, rfl⟩ := eq_of_labels_literal (Statement.Form.use.inj hform) himports
      exact ⟨rfl, rfl⟩
    | _ => cases hform
  | .define name params body, s', rest, rest', h => by
    have hform := Statement.form_eq_of_labels h
    cases s' with
    | define name' params' body' =>
      simp only [Statement.nodes, labels_cons, labels_append, List.cons_append, List.append_assoc,
        List.cons.injEq, Node.label, Label.identifier.injEq] at h
      obtain ⟨-, rfl, h⟩ := h
      obtain ⟨rfl, hbody⟩ := eq_of_labels_identifier (Statement.Form.define.inj hform) h
      simp only [List.cons.injEq, Label.list.injEq] at hbody
      obtain ⟨rfl, rfl⟩ := Statement.eq_of_labelsOfList body body' hbody.1 hbody.2
      exact ⟨rfl, rfl⟩
    | _ => cases hform

theorem Fork.eq_of_labels_append : ∀ (choice choice' : Fork Statement) {rest rest' : List Label},
    labels (Fork.nodes choice) ++ rest = labels (Fork.nodes choice') ++ rest' →
    choice = choice' ∧ rest = rest'
  | ⟨scheme, branches⟩, ⟨scheme', branches'⟩, rest, rest', h => by
    simp only [Fork.nodes, labels_cons, labels_append, List.cons_append, List.append_assoc,
      List.cons.injEq, Node.label, Label.fork.injEq] at h
    obtain ⟨⟨hkeys, hlength⟩, h⟩ := h
    obtain ⟨rfl, hbranches⟩ := Expr.eq_of_labelsOfScheme hkeys h
    obtain ⟨rfl, rfl⟩ := Branch.eq_of_labelsOfList branches branches' hlength hbranches
    exact ⟨rfl, rfl⟩

theorem Branch.eq_of_labelsOfList : ∀ (branches branches' : List (Branch Statement))
    {rest rest' : List Label}, branches.length = branches'.length →
    labels (Branch.nodesOfList branches) ++ rest = labels (Branch.nodesOfList branches') ++ rest' →
    branches = branches' ∧ rest = rest'
  | [], [], _, _, _, h => ⟨rfl, h⟩
  | ⟨condition, body⟩ :: branches, ⟨condition', body'⟩ :: branches', rest, rest', hlength, h => by
    simp only [Branch.nodesOfList, labels_cons, labels_append, List.cons_append, List.append_assoc,
      List.cons.injEq, Node.label, Label.branch.injEq] at h
    obtain ⟨rfl, hbody⟩ := Expr.eq_of_labelsOfOption h.1 h.2
    simp only [List.cons.injEq, Label.list.injEq] at hbody
    obtain ⟨rfl, hothers⟩ := Statement.eq_of_labelsOfList body body' hbody.1 hbody.2
    obtain ⟨rfl, rfl⟩ := Branch.eq_of_labelsOfList branches branches' (Nat.succ.inj hlength) hothers
    exact ⟨rfl, rfl⟩

theorem Statement.eq_of_labelsOfList : ∀ (statements statements' : List Statement)
    {rest rest' : List Label}, statements.length = statements'.length →
    labels (Statement.nodesOfList statements) ++ rest =
      labels (Statement.nodesOfList statements') ++ rest' →
    statements = statements' ∧ rest = rest'
  | [], [], _, _, _, h => ⟨rfl, h⟩
  | s :: statements, s' :: statements', rest, rest', hlength, h => by
    simp only [Statement.nodesOfList, labels_append, List.append_assoc] at h
    obtain ⟨rfl, hothers⟩ := Statement.eq_of_labels s s' h
    obtain ⟨rfl, rfl⟩ :=
      Statement.eq_of_labelsOfList statements statements' (Nat.succ.inj hlength) hothers
    exact ⟨rfl, rfl⟩

end

/-- The labels of a fork determine it. -/
theorem Fork.eq_of_labels {choice choice' : Fork Statement} (h : choice.labels = choice'.labels) :
    choice = choice' := by
  have happend : Dialogue.labels (Fork.nodes choice) ++ [] =
      Dialogue.labels (Fork.nodes choice') ++ [] := congrArg (· ++ []) h
  exact (Fork.eq_of_labels_append choice choice' happend).1

/-- The labels of a script determine it. -/
theorem Script.eq_of_labels {script script' : Script}
    (h : labels script.nodes = labels script'.nodes) : script = script' := by
  obtain ⟨hlabel, hstatements⟩ := List.cons.inj h
  exact (Statement.eq_of_labelsOfList script script' (Label.list.inj hlabel)
    (congrArg (· ++ []) hstatements)).1

end Dialogue
