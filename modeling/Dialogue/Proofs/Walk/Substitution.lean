import Dialogue.Script.Substitute
import Dialogue.Proofs.Walk.Steps

/-!
# Bounded substitution, step by step

A substitution under a limit recurses into the replacements it makes and bounds how deep they nest.
Here it is shown to do the same as a walk in single steps, which has no such bound. `Walked` says so
of one part of a tree: from one tally to another, the walk takes as many steps as the new part has
nodes, and has then seen the labels of these nodes. This composes, so it follows the structure of
the tree; an occurrence of the name is the one place where the walk leaves that structure, and
`Enters` is what it needs there. Each replacement takes one off the limit, so the bound on the
nesting holds as long as the limit does, by induction on it.

The main result is that the walk ends and accounts for every node (`Script.substitute_accounts`).
-/

namespace Dialogue

/-! ## What a walk keeps -/

section

variable {name : String} {enter : Walk Expr}

theorem Expr.length_substituteWithOfList (es : List Expr) (tally : Tally) :
    ((Expr.substituteWithOfList name enter es).run tally).1.length = es.length := by
  induction es generalizing tally with
  | nil => rfl
  | cons e es ih => exact congrArg (· + 1) (ih _)

theorem Expr.keys_substituteWithOfFields (fields : List (String × Expr)) (tally : Tally) :
    ((Expr.substituteWithOfFields name enter fields).run tally).1.map Prod.fst =
      fields.map Prod.fst := by
  induction fields generalizing tally with
  | nil => rfl
  | cons field fields ih => exact congrArg (field.1 :: ·) (ih _)

theorem Expr.isSome_substituteWithOfOption (condition : Option Expr) (tally : Tally) :
    ((Expr.substituteWithOfOption name enter condition).run tally).1.isSome = condition.isSome := by
  cases condition <;> rfl

theorem Expr.keys_substituteWithOfScheme (scheme : Option (List (String × Expr))) (tally : Tally) :
    ((Expr.substituteWithOfScheme name enter scheme).run tally).1.map (List.map Prod.fst) =
      scheme.map (List.map Prod.fst) := by
  cases scheme with
  | none => rfl
  | some fields => exact congrArg some (Expr.keys_substituteWithOfFields fields tally)

theorem Target.form_substituteWith (target : Target) (tally : Tally) :
    ((target.substituteWith name enter).run tally).1.form = target.form := by
  cases target with
  | name x => rfl
  | list elements => exact congrArg Target.Form.list (Expr.length_substituteWithOfList elements _)
  | edit root keys => exact congrArg Target.Form.edit (Expr.length_substituteWithOfList keys _)

theorem Branch.length_substituteWithOfList (branches : List (Branch Statement)) (tally : Tally) :
    ((Branch.substituteWithOfList name enter branches).run tally).1.length = branches.length := by
  induction branches generalizing tally with
  | nil => rfl
  | cons arm branches ih => exact congrArg (· + 1) (ih _)

theorem Statement.length_substituteWithOfList (statements : List Statement) (tally : Tally) :
    ((Statement.substituteWithOfList name enter statements).run tally).1.length =
      statements.length := by
  induction statements generalizing tally with
  | nil => rfl
  | cons s statements ih => exact congrArg (· + 1) (ih _)

end

/-! ## Steps of a walk -/

theorem Expr.run_substituteWith_name (name x : String) (enter : Walk Expr) (tally : Tally) :
    ((Expr.name x).substituteWith name enter).run tally =
      if x = name ∧ 0 < tally.left then enter.run ⟨tally.left - 1, tally.visited⟩
      else (.name x, ⟨tally.left, tally.visited + 2⟩) := by
  by_cases h : x = name ∧ 0 < tally.left
  · rw [if_pos h]
    exact congrArg (StateT.run · tally) (if_pos h)
  · rw [if_neg h]
    exact congrArg (StateT.run · tally) (if_neg h)

section

variable {name : String} {replacement : Expr}

/-- A walk goes through nodes from one tally to another and makes them the nodes of `result`. It
takes a step for each of these, whatever was seen before and is ahead after them. -/
def Walked (name : String) (replacement : Expr) (nodes : List Node) (tally : Tally)
    (result : List Node) (tally' : Tally) : Prop :=
  tally'.visited = tally.visited + result.length ∧
    ∃ done, ∀ replaced seen stack,
      Walker.advance name replacement result.length ⟨tally.left, replaced, seen, nodes ++ stack⟩ =
        some ⟨tally'.left, replaced + done, seen ++ labels result, stack⟩

namespace Walked

variable {nodes others result result' : List Node} {tally tally' tally'' : Tally}

theorem left_le {bound : Nat} (h : Walked name replacement nodes tally result tally')
    (hbound : tally.left ≤ bound) : tally'.left ≤ bound := by
  obtain ⟨-, done, hrun⟩ := h
  have hsum : tally'.left + (0 + done) = tally.left + 0 :=
    Walker.left_add_replaced_of_advance (hrun 0 [] [])
  omega

theorem nil : Walked name replacement [] tally [] tally :=
  ⟨rfl, 0, fun replaced seen stack => by rw [labels_nil, List.append_nil]; rfl⟩

theorem append (h : Walked name replacement nodes tally result tally')
    (h' : Walked name replacement others tally' result' tally'') :
    Walked name replacement (nodes ++ others) tally (result ++ result') tally'' := by
  obtain ⟨hvisited, done, hrun⟩ := h
  obtain ⟨hvisited', done', hrun'⟩ := h'
  refine ⟨by rw [hvisited', hvisited, List.length_append, Nat.add_assoc], done + done', ?_⟩
  intro replaced seen stack
  rw [List.length_append, Walker.advance_add, List.append_assoc, hrun, Option.bind_some, hrun',
    labels_append, Nat.add_assoc, List.append_assoc]

/-- A step to the parts of what it sees, and a walk through these parts. -/
theorem of_step {node node' : Node} {parts : List Node} {left : Nat} (fresh : Nat)
    (hstep : ∀ replaced seen stack,
      Walker.step name replacement ⟨tally.left, replaced, seen, node :: stack⟩ =
        some ⟨left, replaced + fresh, seen ++ [node'.label], parts ++ stack⟩)
    (h : Walked name replacement parts ⟨left, tally.visited + 1⟩ result tally') :
    Walked name replacement [node] tally (node' :: result) tally' := by
  obtain ⟨hvisited, done, hrun⟩ := h
  refine ⟨?_, fresh + done, fun replaced seen stack => ?_⟩
  · rw [hvisited, List.length_cons]
    exact Nat.succ_add_eq_add_succ _ _
  · rw [List.length_cons, Walker.advance, List.singleton_append, hstep, Option.bind_some, hrun,
      labels_cons, List.append_assoc, List.singleton_append, Nat.add_assoc]

/-- A node that is not replaced is seen, and its parts are next. -/
theorem visit {node node' : Node} (hname : node.isName name = true → tally.left = 0)
    (hlabel : node'.label = node.label)
    (h : Walked name replacement node.parts ⟨tally.left, tally.visited + 1⟩ result tally') :
    Walked name replacement [node] tally (node' :: result) tally' := by
  have hkept : ¬(node.isName name = true ∧ 0 < tally.left) := fun hboth =>
    Nat.ne_of_gt hboth.2 (hname hboth.1)
  refine of_step 0 (fun replaced seen stack => ?_) h
  rw [hlabel]
  exact if_neg hkept

/-- A name that is replaced takes one off the limit, and the parts of the replacement are next. -/
theorem replace {node : Node} (hpos : 0 < tally.left)
    (hlabel : node.label = .expression replacement.form)
    (h : Walked name replacement replacement.parts ⟨tally.left - 1, tally.visited + 1⟩ result
      tally') :
    Walked name replacement [.expression (.name name)] tally (node :: result) tally' := by
  refine of_step 1 (fun replaced seen stack => ?_) h
  rw [hlabel]
  exact if_pos ⟨Node.isName_name, hpos⟩

/-- A node without parts is seen. -/
theorem leaf {node : Node} (hname : node.isName name = false) (hparts : node.parts = []) :
    Walked name replacement [node] tally [node] ⟨tally.left, tally.visited + 1⟩ := by
  refine visit (fun h => absurd (h.symm.trans hname) Bool.false_ne_true.symm) rfl ?_
  rw [hparts]
  exact nil

theorem leaves {α : Type} {node : α → Node} (hname : ∀ a, (node a).isName name = false)
    (hparts : ∀ a, (node a).parts = []) (elements : List α) :
    Walked name replacement (elements.map node) tally (elements.map node)
      ⟨tally.left, tally.visited + elements.length⟩ := by
  induction elements generalizing tally with
  | nil => exact nil
  | cons a others ih =>
    rw [List.length_cons, Nat.add_comm others.length, ← Nat.add_assoc]
    exact (leaf (hname a) (hparts a)).append ih

theorem identifiers (names : List String) :
    Walked name replacement (names.map .identifier) tally (names.map .identifier)
      ⟨tally.left, tally.visited + names.length⟩ :=
  leaves (fun _ => rfl) (fun _ => rfl) names

theorem literals (values : List Literal) :
    Walked name replacement (values.map .literal) tally (values.map .literal)
      ⟨tally.left, tally.visited + values.length⟩ :=
  leaves (fun _ => rfl) (fun _ => rfl) values

end Walked

/-- A walk goes through nodes whenever at most `bound` replacements are left; `view` gives the nodes
of what it makes of them. -/
def Traverses {α : Type} (name : String) (replacement : Expr) (bound : Nat) (nodes : List Node)
    (view : α → List Node) (walk : Walk α) : Prop :=
  ∀ tally : Tally, tally.left ≤ bound →
    Walked name replacement nodes tally (view (walk.run tally).1) (walk.run tally).2

end

/-! ## Expressions -/

section

variable {name : String} {replacement : Expr} {bound : Nat} {enter : Walk Expr}

/-- An expression is kept at its root, and its parts are walked. -/
def Opened (name : String) (replacement e : Expr) (tally : Tally) (result : Expr × Tally) : Prop :=
  result.1.form = e.form ∧
    Walked name replacement e.parts ⟨tally.left, tally.visited + 1⟩ result.1.nodes.tail result.2

/-- What makes a fresh replacement walks its parts, as long as fewer replacements than `bound` are
left. -/
def Enters (name : String) (replacement : Expr) (bound : Nat) (enter : Walk Expr) : Prop :=
  ∀ tally : Tally, tally.left < bound → Opened name replacement replacement tally (enter.run tally)

theorem Expr.nodes_eq_cons (e : Expr) : e.nodes = .expression e :: e.nodes.tail := by
  cases e <;> rfl

/-- An expression is replaced, or else walked part by part. -/
theorem Expr.walked_of_opened (henter : Enters name replacement bound enter) {e : Expr}
    (hopened : ∀ tally : Tally, tally.left ≤ bound → (e.isName name = true → tally.left = 0) →
      Opened name replacement e tally ((e.substituteWith name enter).run tally)) :
    Traverses name replacement bound [.expression e] Expr.nodes (e.substituteWith name enter) := by
  intro tally hbound
  rw [Expr.nodes_eq_cons]
  by_cases hname : e.isName name = true → tally.left = 0
  · obtain ⟨hform, hparts⟩ := hopened tally hbound hname
    exact .visit hname (congrArg Label.expression hform) hparts
  · obtain ⟨hname, hleft⟩ := Classical.not_imp.1 hname
    obtain rfl : e = .name name := Expr.isName_eq_true_iff.1 hname
    have hpos := Nat.pos_of_ne_zero hleft
    have hlt : tally.left - 1 < bound := by omega
    obtain ⟨hform, hparts⟩ := henter ⟨tally.left - 1, tally.visited⟩ hlt
    rw [Expr.run_substituteWith_name, if_pos ⟨rfl, hpos⟩]
    exact .replace hpos (congrArg Label.expression hform) hparts

mutual

/-- An expression that is not replaced is walked part by part. -/
theorem Expr.opened (henter : Enters name replacement bound enter) : ∀ (e : Expr) (tally : Tally),
    tally.left ≤ bound → (e.isName name = true → tally.left = 0) →
    Opened name replacement e tally ((e.substituteWith name enter).run tally)
  | .binary op left right, tally, hbound, _ => by
    have hleft := Expr.walked_of_opened henter (Expr.opened henter left)
      ⟨tally.left, tally.visited + 1⟩ hbound
    have hright := Expr.walked_of_opened henter (Expr.opened henter right) _
      (hleft.left_le hbound)
    exact ⟨rfl, hleft.append hright⟩
  | .not operand, tally, hbound, _ =>
    ⟨rfl, Expr.walked_of_opened henter (Expr.opened henter operand)
      ⟨tally.left, tally.visited + 1⟩ hbound⟩
  | .call callee args, tally, hbound, _ => by
    have hcallee := Expr.walked_of_opened henter (Expr.opened henter callee)
      ⟨tally.left, tally.visited + 1⟩ hbound
    have hargs := Expr.walkedOfList henter args _ (hcallee.left_le hbound)
    exact ⟨congrArg Expr.Form.call (Expr.length_substituteWithOfList args _),
      hcallee.append hargs⟩
  | .member target property, tally, hbound, _ => by
    have htarget := Expr.walked_of_opened henter (Expr.opened henter target)
      ⟨tally.left, tally.visited + 1⟩ hbound
    have hproperty := Expr.walked_of_opened henter (Expr.opened henter property) _
      (htarget.left_le hbound)
    exact ⟨rfl, htarget.append hproperty⟩
  | .name x, tally, _, hname => by
    have hkept : ¬(x = name ∧ 0 < tally.left) := fun h =>
      Nat.ne_of_gt h.2 (hname (decide_eq_true h.1))
    rw [Expr.run_substituteWith_name, if_neg hkept]
    exact ⟨rfl, .leaf rfl rfl⟩
  | .literal value, tally, _, _ => ⟨rfl, .leaf rfl rfl⟩
  | .array elements, tally, hbound, _ =>
    ⟨congrArg Expr.Form.array (Expr.length_substituteWithOfList elements _),
      Expr.walkedOfList henter elements ⟨tally.left, tally.visited + 1⟩ hbound⟩
  | .object fields, tally, hbound, _ =>
    ⟨congrArg Expr.Form.object (Expr.keys_substituteWithOfFields fields _),
      Expr.walkedOfFields henter fields ⟨tally.left, tally.visited + 1⟩ hbound⟩
  | .spread elements, tally, hbound, _ =>
    ⟨congrArg Expr.Form.spread (Expr.length_substituteWithOfList elements _),
      Expr.walkedOfList henter elements ⟨tally.left, tally.visited + 1⟩ hbound⟩

theorem Expr.walkedOfList (henter : Enters name replacement bound enter) : ∀ es : List Expr,
    Traverses name replacement bound (es.map .expression) Expr.nodesOfList
      (Expr.substituteWithOfList name enter es)
  | [] => fun _ _ => .nil
  | e :: es => by
    intro tally hbound
    have he := Expr.walked_of_opened henter (Expr.opened henter e) tally hbound
    have hes := Expr.walkedOfList henter es _ (he.left_le hbound)
    exact he.append hes

theorem Expr.walkedOfFields (henter : Enters name replacement bound enter) :
    ∀ fields : List (String × Expr),
    Traverses name replacement bound (fields.map fun field => .expression field.2)
      Expr.nodesOfFields (Expr.substituteWithOfFields name enter fields)
  | [] => fun _ _ => .nil
  | (_, e) :: fields => by
    intro tally hbound
    have he := Expr.walked_of_opened henter (Expr.opened henter e) tally hbound
    have hfields := Expr.walkedOfFields henter fields _ (he.left_le hbound)
    exact he.append hfields

end

theorem Expr.walked (henter : Enters name replacement bound enter) (e : Expr) :
    Traverses name replacement bound [.expression e] Expr.nodes (e.substituteWith name enter) :=
  Expr.walked_of_opened henter (Expr.opened henter e)

theorem Expr.walkedOfOption (henter : Enters name replacement bound enter)
    (condition : Option Expr) :
    Traverses name replacement bound (condition.toList.map .expression) Expr.nodesOfOption
      (Expr.substituteWithOfOption name enter condition) := by
  cases condition with
  | none => exact fun _ _ => .nil
  | some e => exact fun tally hbound => Expr.walked henter e tally hbound

theorem Expr.walkedOfScheme (henter : Enters name replacement bound enter)
    (scheme : Option (List (String × Expr))) :
    Traverses name replacement bound ((scheme.getD []).map fun field => .expression field.2)
      Expr.nodesOfScheme (Expr.substituteWithOfScheme name enter scheme) := by
  cases scheme with
  | none => exact fun _ _ => .nil
  | some fields => exact fun tally hbound => Expr.walkedOfFields henter fields tally hbound

theorem Target.walked (henter : Enters name replacement bound enter) (target : Target) :
    Traverses name replacement bound target.parts Target.nodes
      (target.substituteWith name enter) := by
  intro tally hbound
  cases target with
  | name x => exact .leaf rfl rfl
  | list elements => exact Expr.walkedOfList henter elements tally hbound
  | edit root keys =>
    have hroot := Expr.walked henter root tally hbound
    exact hroot.append (Expr.walkedOfList henter keys _ (hroot.left_le hbound))

/-! ## Statements -/

/-- The statements of a list are walked after the list itself. -/
theorem Statement.walked_list {body : List Statement} (tally : Tally)
    (h : Walked name replacement (body.map .statement) ⟨tally.left, tally.visited + 1⟩
      (Statement.nodesOfList ((Statement.substituteWithOfList name enter body).run
        ⟨tally.left, tally.visited + 1⟩).1)
      ((Statement.substituteWithOfList name enter body).run ⟨tally.left, tally.visited + 1⟩).2) :
    Walked name replacement [.list body] tally
      (Script.nodes ((Statement.substituteWithOfList name enter body).run
        ⟨tally.left, tally.visited + 1⟩).1)
      ((Statement.substituteWithOfList name enter body).run ⟨tally.left, tally.visited + 1⟩).2 :=
  .visit nofun (congrArg Label.list (Statement.length_substituteWithOfList body _)) h

theorem Fork.walked_parts {scheme scheme' : Option (List (String × Expr))}
    {branches branches' : List (Branch Statement)} {tally tally' : Tally}
    (hkeys : scheme'.map (List.map Prod.fst) = scheme.map (List.map Prod.fst))
    (hlength : branches'.length = branches.length)
    (h : Walked name replacement (Node.fork ⟨scheme, branches⟩).parts
      ⟨tally.left, tally.visited + 1⟩
      (Expr.nodesOfScheme scheme' ++ Branch.nodesOfList branches') tally') :
    Walked name replacement [.fork ⟨scheme, branches⟩] tally (Fork.nodes ⟨scheme', branches'⟩)
      tally' := by
  refine .visit nofun ?_ h
  rw [Node.label, Node.label, hkeys, hlength]

theorem Branch.walked_parts {condition condition' : Option Expr} {body body' : List Statement}
    {tally tally' : Tally} (hsome : condition'.isSome = condition.isSome)
    (h : Walked name replacement (Node.branch ⟨condition, body⟩).parts
      ⟨tally.left, tally.visited + 1⟩ (Expr.nodesOfOption condition' ++ Script.nodes body')
      tally') :
    Walked name replacement [.branch ⟨condition, body⟩] tally
      (.branch ⟨condition', body'⟩ :: (Expr.nodesOfOption condition' ++ Script.nodes body'))
      tally' :=
  .visit nofun (congrArg Label.branch hsome) h

mutual

theorem Statement.walked (henter : Enters name replacement bound enter) : ∀ s : Statement,
    Traverses name replacement bound [.statement s] Statement.nodes (s.substituteWith name enter)
  | .fork choice => fun tally hbound =>
    .visit nofun rfl (Fork.walked henter choice ⟨tally.left, tally.visited + 1⟩ hbound)
  | .input result choice => by
    intro tally hbound
    have hchoice := Fork.walked henter choice ⟨tally.left, tally.visited + 2⟩ hbound
    exact .visit nofun rfl ((Walked.leaf rfl rfl).append hchoice)
  | .await condition body => by
    intro tally hbound
    have hcondition := Expr.walked henter condition ⟨tally.left, tally.visited + 1⟩ hbound
    have hbody := Statement.walked_list _
      (Statement.walkedOfList henter body _ (hcondition.left_le hbound))
    exact .visit nofun rfl (hcondition.append hbody)
  | .once body => by
    intro tally hbound
    have hbody := Statement.walkedOfList henter body ⟨tally.left, tally.visited + 2⟩ hbound
    exact .visit nofun rfl (Statement.walked_list ⟨tally.left, tally.visited + 1⟩ hbody)
  | .perform verb value => fun tally hbound =>
    .visit nofun rfl (Expr.walked henter value ⟨tally.left, tally.visited + 1⟩ hbound)
  | .set target value => by
    intro tally hbound
    have htarget := Target.walked henter target ⟨tally.left, tally.visited + 1⟩ hbound
    have hvalue := Expr.walked henter value _ (htarget.left_le hbound)
    refine .visit nofun ?_ (htarget.append hvalue)
    exact congrArg (Label.statement ∘ Statement.Form.set) (Target.form_substituteWith target _)
  | .run program args result none => by
    intro tally hbound
    have hprogram := Expr.walked henter program ⟨tally.left, tally.visited + 1⟩ hbound
    have hargs := Expr.walkedOfList henter args _ (hprogram.left_le hbound)
    have hcall := (hprogram.append hargs).append (.identifiers result.toList)
    refine .visit nofun ?_ ?_
    · exact congrArg (fun count => Label.statement (.run count result.isSome false))
        (Expr.length_substituteWithOfList args _)
    · rw [Node.parts, Statement.parts, Option.toList_none, List.map_nil, List.append_nil]
      exact hcall
  | .run program args result (some choice) => by
    intro tally hbound
    have hprogram := Expr.walked henter program ⟨tally.left, tally.visited + 1⟩ hbound
    have hargs := Expr.walkedOfList henter args _ (hprogram.left_le hbound)
    have hcall := (hprogram.append hargs).append (.identifiers result.toList)
    have hchoice := Fork.walked henter choice _ (hcall.left_le hbound)
    refine .visit nofun ?_ (hcall.append hchoice)
    exact congrArg (fun count => Label.statement (.run count result.isSome true))
      (Expr.length_substituteWithOfList args _)
  | .use source imports => by
    intro tally hbound
    have hsource := Expr.walked henter source ⟨tally.left, tally.visited + 1⟩ hbound
    exact .visit nofun rfl (hsource.append (.literals imports))
  | .define function params body => by
    intro tally hbound
    -- the statement, its identifiers and the list of its body are counted at once
    have hvisited : tally.visited + (3 + params.length) =
        tally.visited + 1 + 1 + params.length + 1 := by
      omega
    have hbody := Statement.walked_list ⟨tally.left, tally.visited + 1 + 1 + params.length⟩
      (Statement.walkedOfList henter body _ hbound)
    have hfunction : Walked name replacement [.identifier function]
        ⟨tally.left, tally.visited + 1⟩ [.identifier function]
        ⟨tally.left, tally.visited + 1 + 1⟩ := .leaf rfl rfl
    have hparts := (hfunction.append (.identifiers params)).append hbody
    rw [← hvisited] at hparts
    exact .visit nofun rfl hparts

theorem Fork.walked (henter : Enters name replacement bound enter) : ∀ choice : Fork Statement,
    Traverses name replacement bound [.fork choice] Fork.nodes
      (Fork.substituteWith name enter choice)
  | ⟨scheme, branches⟩ => by
    intro tally hbound
    have hscheme := Expr.walkedOfScheme henter scheme ⟨tally.left, tally.visited + 1⟩ hbound
    have hbranches := Branch.walkedOfList henter branches _ (hscheme.left_le hbound)
    exact Fork.walked_parts (Expr.keys_substituteWithOfScheme scheme _)
      (Branch.length_substituteWithOfList branches _) (hscheme.append hbranches)

theorem Branch.walkedOfList (henter : Enters name replacement bound enter) :
    ∀ branches : List (Branch Statement),
    Traverses name replacement bound (branches.map .branch) Branch.nodesOfList
      (Branch.substituteWithOfList name enter branches)
  | [] => fun _ _ => .nil
  | ⟨condition, body⟩ :: branches => by
    intro tally hbound
    have hcondition :=
      Expr.walkedOfOption henter condition ⟨tally.left, tally.visited + 1⟩ hbound
    have hbody := Statement.walked_list _
      (Statement.walkedOfList henter body _ (hcondition.left_le hbound))
    have hbranches := Branch.walkedOfList henter branches _
      ((hcondition.append hbody).left_le hbound)
    exact (Branch.walked_parts (Expr.isSome_substituteWithOfOption condition _)
      (hcondition.append hbody)).append hbranches

theorem Statement.walkedOfList (henter : Enters name replacement bound enter) :
    ∀ statements : List Statement,
    Traverses name replacement bound (statements.map .statement) Statement.nodesOfList
      (Statement.substituteWithOfList name enter statements)
  | [] => fun _ _ => .nil
  | s :: statements => by
    intro tally hbound
    have hs := Statement.walked henter s tally hbound
    exact hs.append (Statement.walkedOfList henter statements _ (hs.left_le hbound))

end

/-! ## Under a limit -/

/-- The bound on how deep replacements nest is never met: each of them takes one off the limit. -/
theorem enters_enterReplacement (name : String) (replacement : Expr) (limit : Nat) :
    Enters name replacement limit (Expr.enterReplacement name replacement limit) := by
  induction limit with
  | zero => exact fun tally h => absurd h (Nat.not_lt_zero tally.left)
  | succ limit ih =>
    intro tally h
    cases replacement with
    | name x => exact ⟨rfl, .leaf rfl rfl⟩
    | _ => exact Expr.opened ih _ tally (Nat.le_of_lt_succ h) nofun

theorem Script.walked_substitute (name : String) (replacement : Expr) (limit : Nat)
    (script : Script) :
    Walked name replacement [.list script] ⟨limit, 0⟩
      (script.substitute name replacement limit).1.nodes
      (script.substitute name replacement limit).2 :=
  Statement.walked_list ⟨limit, 0⟩ (Statement.walkedOfList
    (enters_enterReplacement name replacement limit) script ⟨limit, 1⟩ (Nat.le_refl limit))

/-- A walk that replaces a name under a limit ends, in as many steps as the resulting script has
nodes, and what is left of the limit is what the replacements have not used. A replacement without
the name inside goes to the first occurrences in the order of the walk, as far as the limit reaches,
and to nothing else; one with the name inside uses up the limit as soon as there is an
occurrence. -/
theorem Script.substitute_accounts (name : String) (replacement : Expr) (limit : Nat)
    (script : Script) :
    ∃ (result : Script) (tally : Tally) (replaced : Nat),
      script.substitute name replacement limit = (result, tally) ∧
      (Walker.start limit (.list script)).advance name replacement tally.visited =
        some ⟨tally.left, replaced, labels result.nodes, []⟩ ∧
      limit = replaced + tally.left ∧
      tally.visited = result.nodes.length ∧
      (occurrences name replacement.nodes.tail = 0 →
        (∀ other : Script, other = result ↔ labels other.nodes =
          replaceFirst name (labels replacement.nodes)
            (min limit (occurrences name script.nodes)) script.nodes) ∧
        tally.left = limit - min limit (occurrences name script.nodes)) ∧
      (0 < occurrences name replacement.nodes.tail → 0 < occurrences name script.nodes →
        tally.left = 0) := by
  have hwalked := Script.walked_substitute name replacement limit script
  generalize script.substitute name replacement limit = walked at hwalked ⊢
  obtain ⟨result, tally⟩ := walked
  obtain ⟨hvisited, replaced, hrun⟩ := hwalked
  have hend : (Walker.start limit (.list script)).advance name replacement result.nodes.length =
      some ⟨tally.left, replaced, labels result.nodes, []⟩ := by
    have hempty := hrun 0 [] []
    rwa [Nat.zero_add, List.nil_append] at hempty
  have hcount : tally.visited = result.nodes.length := hvisited.trans (Nat.zero_add _)
  have hsum : tally.left + replaced = limit + 0 := Walker.left_add_replaced_of_advance hend
  have hinner : replacement.nodes.tail = replacement.parts.flatMap Node.nodes := by
    rw [Expr.nodes_eq, List.tail_cons]
  refine ⟨result, tally, replaced, rfl, hcount ▸ hend, by omega, hcount, ?_, ?_⟩
  · rw [hinner]
    intro hclean
    obtain ⟨hseen, hleft⟩ := Walker.advance_of_clean hclean hend rfl
    refine ⟨fun other => ?_, hleft⟩
    constructor
    · rintro rfl
      exact hseen
    · exact fun hother => Script.eq_of_labels (hother.trans hseen.symm)
  · rw [hinner]
    exact fun hnested hpos => Walker.advance_of_nested hnested hend rfl hpos

/-- A list of the name brings it up again at every replacement, while the name itself takes its own
place once for each occurrence. -/
theorem Script.substitute_accounts_own_name :
    (Script.substitute "x" (.array [.name "x"]) 3 [.perform .act (.name "x")]).2.left = 0 ∧
      (Script.substitute "x" (.name "x") 3
        [.perform .act (.name "x"), .perform .pop (.name "x")]).2.left = 1 := by
  constructor
  · obtain ⟨result, tally, replaced, heq, -, -, -, -, hnested⟩ :=
      Script.substitute_accounts "x" (.array [.name "x"]) 3 [.perform .act (.name "x")]
    rw [heq]
    exact hnested (by decide) (by decide)
  · obtain ⟨result, tally, replaced, heq, -, -, -, hclean, -⟩ :=
      Script.substitute_accounts "x" (.name "x") 3
        [.perform .act (.name "x"), .perform .pop (.name "x")]
    rw [heq]
    exact (hclean (by decide)).2

end

end Dialogue
