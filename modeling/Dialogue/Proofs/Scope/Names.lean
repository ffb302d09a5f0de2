import Dialogue.Lowering.Statement

/-!
# Names under renaming and lowering

What renaming does to a tree is decided by what it does to the identifiers in it
(`mapNames_eq_iff`, for each class of trees). Lowering carries its renamings down as a scope, and
that comes to the same as renaming the whole tree first (`lower_mapNames`): so a result is bound by
renaming it in its fork, in place (`Statement.lower_input`, `Statement.lower_run`), and the scope of
a fork matters only at the identifiers of that fork (`Fork.lower_congr`). A scope made of results
takes each name to itself or to a reserved name (`Scope.Resolving`).
-/

namespace Dialogue

/-! ## Reserved names -/

/-- The two names that the runtime keeps for itself. -/
def Scope.Reserved (x : String) : Prop := x = inputName ∨ x = returnName

instance (x : String) : Decidable (Scope.Reserved x) :=
  inferInstanceAs (Decidable (x = Scope.inputName ∨ x = Scope.returnName))

/-- A node that is no identifier with a reserved name. -/
def Node.Unreserved (node : Node) : Prop := ∀ x ∈ node.identifier?, ¬ Scope.Reserved x

instance (node : Node) : Decidable node.Unreserved :=
  inferInstanceAs (Decidable (∀ x ∈ node.identifier?, ¬ Scope.Reserved x))

/-! ## The names of a renamed expression -/

/-- The names of the identifiers in an expression, in the order of its nodes. -/
def Expr.identifiers (e : Expr) : List String := e.nodes.filterMap Node.identifier?

section

variable {f : String → String}

mutual

theorem Expr.identifiers_mapNames : ∀ e : Expr,
    (e.mapNames f).nodes.filterMap Node.identifier? =
      (e.nodes.filterMap Node.identifier?).map f
  | .binary op left right => by
    simp [Expr.mapNames, Expr.nodes, List.filterMap_cons, Node.identifier?,
      left.identifiers_mapNames, right.identifiers_mapNames]
  | .not operand => by
    simp [Expr.mapNames, Expr.nodes, List.filterMap_cons, Node.identifier?,
      operand.identifiers_mapNames]
  | .call callee args => by
    simp [Expr.mapNames, Expr.nodes, List.filterMap_cons, Node.identifier?,
      callee.identifiers_mapNames, Expr.identifiers_mapNamesOfList args]
  | .member target property => by
    simp [Expr.mapNames, Expr.nodes, List.filterMap_cons, Node.identifier?,
      target.identifiers_mapNames, property.identifiers_mapNames]
  | .name x => by simp [Expr.mapNames, Expr.nodes, List.filterMap_cons, Node.identifier?]
  | .literal value => by simp [Expr.mapNames, Expr.nodes, List.filterMap_cons, Node.identifier?]
  | .array elements => by
    simp [Expr.mapNames, Expr.nodes, List.filterMap_cons, Node.identifier?,
      Expr.identifiers_mapNamesOfList elements]
  | .object fields => by
    simp [Expr.mapNames, Expr.nodes, List.filterMap_cons, Node.identifier?,
      Expr.identifiers_mapNamesOfFields fields]
  | .spread elements => by
    simp [Expr.mapNames, Expr.nodes, List.filterMap_cons, Node.identifier?,
      Expr.identifiers_mapNamesOfList elements]

theorem Expr.identifiers_mapNamesOfList : ∀ es : List Expr,
    (Expr.nodesOfList (Expr.mapNamesOfList f es)).filterMap Node.identifier? =
      ((Expr.nodesOfList es).filterMap Node.identifier?).map f
  | [] => rfl
  | e :: es => by
    simp [Expr.mapNamesOfList, Expr.nodesOfList, e.identifiers_mapNames,
      Expr.identifiers_mapNamesOfList es]

theorem Expr.identifiers_mapNamesOfFields : ∀ fields : List (String × Expr),
    (Expr.nodesOfFields (Expr.mapNamesOfFields f fields)).filterMap Node.identifier? =
      ((Expr.nodesOfFields fields).filterMap Node.identifier?).map f
  | [] => rfl
  | (_, e) :: fields => by
    simp [Expr.mapNamesOfFields, Expr.nodesOfFields, e.identifiers_mapNames,
      Expr.identifiers_mapNamesOfFields fields]

end

theorem Expr.mapNamesOfList_eq_map (es : List Expr) :
    Expr.mapNamesOfList f es = es.map (Expr.mapNames f) := by
  induction es with
  | nil => rfl
  | cons e es ih => rw [Expr.mapNamesOfList, List.map_cons, ih]

theorem Expr.mapNamesOfFields_eq_map (fields : List (String × Expr)) :
    Expr.mapNamesOfFields f fields = fields.map fun field => (field.1, field.2.mapNames f) := by
  induction fields with
  | nil => rfl
  | cons field fields ih => rw [Expr.mapNamesOfFields, List.map_cons, ih]

end

/-! ## Two renamings of one tree -/

section

variable {f g : String → String}

mutual

theorem Expr.mapNames_eq_iff : ∀ {e : Expr},
    e.mapNames f = e.mapNames g ↔ ∀ x, Node.identifier x ∈ e.nodes → f x = g x
  | .binary op left right => by
    simp [Expr.mapNames, Expr.nodes, left.mapNames_eq_iff, right.mapNames_eq_iff, or_imp,
      forall_and]
  | .not operand => by
    simp [Expr.mapNames, Expr.nodes, operand.mapNames_eq_iff]
  | .call callee args => by
    simp [Expr.mapNames, Expr.nodes, callee.mapNames_eq_iff, Expr.mapNamesOfList_eq_iff, or_imp,
      forall_and]
  | .member target property => by
    simp [Expr.mapNames, Expr.nodes, target.mapNames_eq_iff, property.mapNames_eq_iff, or_imp,
      forall_and]
  | .name x => by simp [Expr.mapNames, Expr.nodes]
  | .literal value => by simp [Expr.mapNames, Expr.nodes]
  | .array elements => by
    simp [Expr.mapNames, Expr.nodes, Expr.mapNamesOfList_eq_iff]
  | .object fields => by
    simp [Expr.mapNames, Expr.nodes, Expr.mapNamesOfFields_eq_iff]
  | .spread elements => by
    simp [Expr.mapNames, Expr.nodes, Expr.mapNamesOfList_eq_iff]

theorem Expr.mapNamesOfList_eq_iff : ∀ {es : List Expr},
    Expr.mapNamesOfList f es = Expr.mapNamesOfList g es ↔
      ∀ x, Node.identifier x ∈ Expr.nodesOfList es → f x = g x
  | [] => by simp [Expr.mapNamesOfList, Expr.nodesOfList]
  | e :: es => by
    simp [Expr.mapNamesOfList, Expr.nodesOfList, e.mapNames_eq_iff, Expr.mapNamesOfList_eq_iff,
      or_imp, forall_and]

theorem Expr.mapNamesOfFields_eq_iff : ∀ {fields : List (String × Expr)},
    Expr.mapNamesOfFields f fields = Expr.mapNamesOfFields g fields ↔
      ∀ x, Node.identifier x ∈ Expr.nodesOfFields fields → f x = g x
  | [] => by simp [Expr.mapNamesOfFields, Expr.nodesOfFields]
  | (_, e) :: fields => by
    simp [Expr.mapNamesOfFields, Expr.nodesOfFields, e.mapNames_eq_iff,
      Expr.mapNamesOfFields_eq_iff, or_imp, forall_and]

end

theorem Target.mapNames_eq_iff {target : Target} :
    target.mapNames f = target.mapNames g ↔
      ∀ x, Node.identifier x ∈ target.nodes → f x = g x := by
  cases target with
  | name x => simp [Target.mapNames, Target.nodes]
  | list elements => simp [Target.mapNames, Target.nodes, Expr.mapNamesOfList_eq_iff]
  | edit root keys =>
    simp [Target.mapNames, Target.nodes, Expr.mapNames_eq_iff, Expr.mapNamesOfList_eq_iff, or_imp,
      forall_and]

theorem Expr.map_mapNames_eq_iff {condition : Option Expr} :
    condition.map (Expr.mapNames f) = condition.map (Expr.mapNames g) ↔
      ∀ x, Node.identifier x ∈ Expr.nodesOfOption condition → f x = g x := by
  cases condition with
  | none => simp [Expr.nodesOfOption]
  | some e => simp [Expr.nodesOfOption, Expr.mapNames_eq_iff]

theorem Expr.map_mapNamesOfFields_eq_iff {scheme : Option (List (String × Expr))} :
    scheme.map (Expr.mapNamesOfFields f) = scheme.map (Expr.mapNamesOfFields g) ↔
      ∀ x, Node.identifier x ∈ Expr.nodesOfScheme scheme → f x = g x := by
  cases scheme with
  | none => simp [Expr.nodesOfScheme]
  | some fields => simp [Expr.nodesOfScheme, Expr.mapNamesOfFields_eq_iff]

mutual

theorem Statement.mapNames_eq_iff : ∀ {s : Statement},
    s.mapNames f = s.mapNames g ↔ ∀ x, Node.identifier x ∈ s.nodes → f x = g x
  | .fork choice => by
    simp [Statement.mapNames, Statement.nodes, Fork.mapNames_eq_iff]
  | .input result choice => by
    simp [Statement.mapNames, Statement.nodes, Fork.mapNames_eq_iff]
  | .await condition body => by
    simp [Statement.mapNames, Statement.nodes, Expr.mapNames_eq_iff,
      Statement.mapNamesOfList_eq_iff, or_imp, forall_and]
  | .once body => by
    simp [Statement.mapNames, Statement.nodes, Statement.mapNamesOfList_eq_iff]
  | .perform verb value => by
    simp [Statement.mapNames, Statement.nodes, Expr.mapNames_eq_iff]
  | .set target value => by
    simp [Statement.mapNames, Statement.nodes, Target.mapNames_eq_iff, Expr.mapNames_eq_iff, or_imp,
      forall_and]
  | .run name args result none => by
    cases result <;>
      simp [Statement.mapNames, Statement.nodes, Expr.mapNames_eq_iff, Expr.mapNamesOfList_eq_iff,
        or_imp, forall_and]
  | .run name args result (some choice) => by
    cases result <;>
      simp [Statement.mapNames, Statement.nodes, Expr.mapNames_eq_iff, Expr.mapNamesOfList_eq_iff,
        Fork.mapNames_eq_iff, or_imp, forall_and]
  | .use name imports => by
    simp [Statement.mapNames, Statement.nodes, Expr.mapNames_eq_iff]
  | .define name params body => by
    simp [Statement.mapNames, Statement.nodes, Statement.mapNamesOfList_eq_iff, or_imp, forall_and]

theorem Fork.mapNames_eq_iff : ∀ {choice : Fork Statement},
    Fork.mapNames f choice = Fork.mapNames g choice ↔
      ∀ x, Node.identifier x ∈ Fork.nodes choice → f x = g x
  | ⟨scheme, branches⟩ => by
    simp [Fork.mapNames, Fork.nodes, Expr.map_mapNamesOfFields_eq_iff,
      Branch.mapNamesOfList_eq_iff, or_imp, forall_and]

theorem Branch.mapNamesOfList_eq_iff : ∀ {branches : List (Branch Statement)},
    Branch.mapNamesOfList f branches = Branch.mapNamesOfList g branches ↔
      ∀ x, Node.identifier x ∈ Branch.nodesOfList branches → f x = g x
  | [] => by simp [Branch.mapNamesOfList, Branch.nodesOfList]
  | ⟨condition, body⟩ :: branches => by
    simp [Branch.mapNamesOfList, Branch.nodesOfList, Expr.map_mapNames_eq_iff,
      Statement.mapNamesOfList_eq_iff, Branch.mapNamesOfList_eq_iff, or_imp, forall_and, and_assoc]

theorem Statement.mapNamesOfList_eq_iff : ∀ {statements : List Statement},
    Statement.mapNamesOfList f statements = Statement.mapNamesOfList g statements ↔
      ∀ x, Node.identifier x ∈ Statement.nodesOfList statements → f x = g x
  | [] => by simp [Statement.mapNamesOfList, Statement.nodesOfList]
  | s :: statements => by
    simp [Statement.mapNamesOfList, Statement.nodesOfList, s.mapNames_eq_iff,
      Statement.mapNamesOfList_eq_iff, or_imp, forall_and]

end

end

/-! ## One renaming after another -/

section

variable (f g : String → String)

mutual

theorem Expr.mapNames_mapNames : ∀ e : Expr, (e.mapNames g).mapNames f = e.mapNames (f ∘ g)
  | .binary _ left right => by
    simp [Expr.mapNames, left.mapNames_mapNames, right.mapNames_mapNames]
  | .not operand => by simp [Expr.mapNames, operand.mapNames_mapNames]
  | .call callee args => by
    simp [Expr.mapNames, callee.mapNames_mapNames, Expr.mapNamesOfList_mapNamesOfList args]
  | .member target property => by
    simp [Expr.mapNames, target.mapNames_mapNames, property.mapNames_mapNames]
  | .name x => by simp [Expr.mapNames]
  | .literal value => by simp [Expr.mapNames]
  | .array elements => by simp [Expr.mapNames, Expr.mapNamesOfList_mapNamesOfList elements]
  | .object fields => by simp [Expr.mapNames, Expr.mapNamesOfFields_mapNamesOfFields fields]
  | .spread elements => by simp [Expr.mapNames, Expr.mapNamesOfList_mapNamesOfList elements]

theorem Expr.mapNamesOfList_mapNamesOfList : ∀ es : List Expr,
    Expr.mapNamesOfList f (Expr.mapNamesOfList g es) = Expr.mapNamesOfList (f ∘ g) es
  | [] => rfl
  | e :: es => by
    simp [Expr.mapNamesOfList, e.mapNames_mapNames, Expr.mapNamesOfList_mapNamesOfList es]

theorem Expr.mapNamesOfFields_mapNamesOfFields : ∀ fields : List (String × Expr),
    Expr.mapNamesOfFields f (Expr.mapNamesOfFields g fields) = Expr.mapNamesOfFields (f ∘ g) fields
  | [] => rfl
  | (_, e) :: fields => by
    simp [Expr.mapNamesOfFields, e.mapNames_mapNames,
      Expr.mapNamesOfFields_mapNamesOfFields fields]

end

theorem Target.mapNames_mapNames (target : Target) :
    (target.mapNames g).mapNames f = target.mapNames (f ∘ g) := by
  cases target with
  | name x => rfl
  | list elements => simp [Target.mapNames, Expr.mapNamesOfList_mapNamesOfList]
  | edit root keys =>
    simp [Target.mapNames, Expr.mapNames_mapNames, Expr.mapNamesOfList_mapNamesOfList]

theorem Expr.map_mapNames_map_mapNames (condition : Option Expr) :
    (condition.map (Expr.mapNames g)).map (Expr.mapNames f) =
      condition.map (Expr.mapNames (f ∘ g)) := by
  cases condition with
  | none => rfl
  | some e => simp [Expr.mapNames_mapNames]

theorem Expr.map_mapNamesOfFields_map_mapNamesOfFields (scheme : Option (List (String × Expr))) :
    (scheme.map (Expr.mapNamesOfFields g)).map (Expr.mapNamesOfFields f) =
      scheme.map (Expr.mapNamesOfFields (f ∘ g)) := by
  cases scheme with
  | none => rfl
  | some fields => simp [Expr.mapNamesOfFields_mapNamesOfFields]

mutual

theorem Statement.mapNames_mapNames : ∀ s : Statement,
    (s.mapNames g).mapNames f = s.mapNames (f ∘ g)
  | .fork choice => by simp [Statement.mapNames, Fork.mapNames_mapNames choice]
  | .input result choice => by simp [Statement.mapNames, Fork.mapNames_mapNames choice]
  | .await condition body => by
    simp [Statement.mapNames, Expr.mapNames_mapNames, Statement.mapNamesOfList_mapNamesOfList body]
  | .once body => by simp [Statement.mapNames, Statement.mapNamesOfList_mapNamesOfList body]
  | .perform verb value => by simp [Statement.mapNames, Expr.mapNames_mapNames]
  | .set target value => by
    simp [Statement.mapNames, Target.mapNames_mapNames, Expr.mapNames_mapNames]
  | .run name args result none => by
    simp [Statement.mapNames, Expr.mapNames_mapNames, Expr.mapNamesOfList_mapNamesOfList]
  | .run name args result (some choice) => by
    simp [Statement.mapNames, Expr.mapNames_mapNames, Expr.mapNamesOfList_mapNamesOfList,
      Fork.mapNames_mapNames choice]
  | .use name imports => by simp [Statement.mapNames, Expr.mapNames_mapNames]
  | .define name params body => by
    simp [Statement.mapNames, Statement.mapNamesOfList_mapNamesOfList body]

theorem Fork.mapNames_mapNames : ∀ choice : Fork Statement,
    Fork.mapNames f (Fork.mapNames g choice) = Fork.mapNames (f ∘ g) choice
  | ⟨scheme, branches⟩ => by
    rw [Fork.mapNames, Fork.mapNames, Fork.mapNames,
      Expr.map_mapNamesOfFields_map_mapNamesOfFields,
      Branch.mapNamesOfList_mapNamesOfList branches]

theorem Branch.mapNamesOfList_mapNamesOfList : ∀ branches : List (Branch Statement),
    Branch.mapNamesOfList f (Branch.mapNamesOfList g branches) =
      Branch.mapNamesOfList (f ∘ g) branches
  | [] => rfl
  | ⟨condition, body⟩ :: branches => by
    rw [Branch.mapNamesOfList, Branch.mapNamesOfList, Branch.mapNamesOfList,
      Expr.map_mapNames_map_mapNames, Statement.mapNamesOfList_mapNamesOfList body,
      Branch.mapNamesOfList_mapNamesOfList branches]

theorem Statement.mapNamesOfList_mapNamesOfList : ∀ statements : List Statement,
    Statement.mapNamesOfList f (Statement.mapNamesOfList g statements) =
      Statement.mapNamesOfList (f ∘ g) statements
  | [] => rfl
  | s :: statements => by
    rw [Statement.mapNamesOfList, Statement.mapNamesOfList, Statement.mapNamesOfList,
      Statement.mapNames_mapNames s, Statement.mapNamesOfList_mapNamesOfList statements]

end

end

/-! ## Lowering a renamed tree -/

section

variable (scope : Scope) (g : String → String)

theorem Expr.lowerIn_mapNames (e : Expr) :
    (e.mapNames g).lowerIn scope = e.lowerIn (scope ∘ g) := by
  rw [Expr.lowerIn, Expr.lowerIn, Expr.mapNames_mapNames]

theorem Expr.lowerOptionIn_map (condition : Option Expr) :
    Expr.lowerOptionIn scope (condition.map (Expr.mapNames g)) =
      Expr.lowerOptionIn (scope ∘ g) condition := by
  cases condition with
  | none => rfl
  | some e => simp only [Option.map_some, Expr.lowerOptionIn, Expr.lowerIn_mapNames]

theorem Expr.lowerSchemeIn_map (scheme : Option (List (String × Expr))) :
    Expr.lowerSchemeIn scope (scheme.map (Expr.mapNamesOfFields g)) =
      Expr.lowerSchemeIn (scope ∘ g) scheme := by
  cases scheme with
  | none => rfl
  | some fields =>
    have hobject := Expr.lowerIn_mapNames scope g (.object fields)
    rw [Expr.mapNames] at hobject
    simp only [Option.map_some, Expr.lowerSchemeIn, hobject]

theorem Expr.lowerCallIn_mapNames (name : Expr) (args : List Expr) :
    (name.mapNames g).lowerCallIn scope (Expr.mapNamesOfList g args) =
      name.lowerCallIn (scope ∘ g) args := by
  rw [Expr.lowerCallIn, Expr.lowerCallIn, Expr.lowerIn_mapNames,
    Expr.mapNamesOfList_mapNamesOfList]

/-- Binding a result after renaming is renaming under the bound result. -/
theorem Scope.bind_comp (current reserved : String) :
    scope.bind current reserved ∘ g = Scope.bind (scope ∘ g) current reserved := rfl

end

mutual

theorem Statement.lower_mapNames (g : String → String) : ∀ (s : Statement) (scope : Scope),
    (s.mapNames g).lower scope = s.lower (scope ∘ g)
  | .fork choice, scope => by
    rw [Statement.mapNames, Statement.lower, Statement.lower, Fork.lower_mapNames g choice]
  | .input result choice, scope => by
    rw [Statement.mapNames, Statement.lower, Statement.lower, Fork.lower_mapNames g choice,
      Scope.bind_comp]
    rfl
  | .await condition body, scope => by
    rw [Statement.mapNames, Statement.lower, Statement.lower, Expr.lowerIn_mapNames,
      Statement.lowerEach_mapNamesOfList g body]
  | .once body, scope => by
    rw [Statement.mapNames, Statement.lower, Statement.lower,
      Statement.lowerEach_mapNamesOfList g body]
  | .perform verb value, scope => by
    rw [Statement.mapNames, Statement.lower, Statement.lower, Expr.lowerIn_mapNames]
  | .set target value, scope => by
    rw [Statement.mapNames, Statement.lower, Statement.lower, Target.mapNames_mapNames,
      Expr.mapNames_mapNames]
  | .run name args none none, scope => by
    rw [Statement.mapNames, Option.map_none, Statement.lower, Statement.lower,
      Expr.lowerCallIn_mapNames]
  | .run name args none (some choice), scope => by
    rw [Statement.mapNames, Option.map_none, Statement.lower, Statement.lower,
      Expr.lowerCallIn_mapNames]
  | .run name args (some result) none, scope => by
    rw [Statement.mapNames, Option.map_some, Statement.lower, Statement.lower,
      Expr.lowerCallIn_mapNames]
    rfl
  | .run name args (some result) (some choice), scope => by
    rw [Statement.mapNames, Option.map_some, Statement.lower, Statement.lower,
      Expr.lowerCallIn_mapNames, Fork.lower_mapNames g choice, Scope.bind_comp]
    rfl
  | .use name imports, scope => by
    rw [Statement.mapNames, Statement.lower, Statement.lower, Expr.lowerIn_mapNames]
  | .define name params body, scope => by
    rw [Statement.mapNames, Statement.lower, Statement.lower,
      Statement.lowerEach_mapNamesOfList g body, ← List.map_cons, List.map_map]
    rfl

theorem Fork.lower_mapNames (g : String → String) :
    ∀ (choice : Fork Statement) (scope : Scope) (members : List (String × Json)),
      Fork.lower scope members (Fork.mapNames g choice) = Fork.lower (scope ∘ g) members choice
  | ⟨scheme, branches⟩, scope, members => by
    rw [Fork.mapNames, Fork.lower, Fork.lower, Branch.lowerEach_mapNamesOfList g branches,
      Expr.lowerSchemeIn_map]

theorem Branch.lowerEach_mapNamesOfList (g : String → String) :
    ∀ (branches : List (Branch Statement)) (scope : Scope),
      Branch.lowerEach scope (Branch.mapNamesOfList g branches) =
        Branch.lowerEach (scope ∘ g) branches
  | [], _ => rfl
  | ⟨condition, body⟩ :: branches, scope => by
    rw [Branch.mapNamesOfList, Branch.lowerEach, Branch.lowerEach,
      Statement.lowerEach_mapNamesOfList g body, Expr.lowerOptionIn_map,
      Branch.lowerEach_mapNamesOfList g branches]

theorem Statement.lowerEach_mapNamesOfList (g : String → String) :
    ∀ (statements : List Statement) (scope : Scope),
      Statement.lowerEach scope (Statement.mapNamesOfList g statements) =
        Statement.lowerEach (scope ∘ g) statements
  | [], _ => rfl
  | s :: statements, scope => by
    rw [Statement.mapNamesOfList, Statement.lowerEach, Statement.lowerEach,
      Statement.lower_mapNames g s, Statement.lowerEach_mapNamesOfList g statements]

end

/-- Lowering in a scope is lowering, in no scope, the fork that the scope makes of a fork. -/
theorem Fork.lower_id_mapNames (scope : Scope) (members : List (String × Json))
    (choice : Fork Statement) :
    Fork.lower id members (Fork.mapNames scope choice) = Fork.lower scope members choice :=
  Fork.lower_mapNames scope choice id members

/-- Binding a result in a scope comes to renaming it, in place, in the fork that the scope makes of
a fork. -/
theorem Fork.lower_bind (scope : Scope) (current reserved : String)
    (members : List (String × Json)) (choice : Fork Statement) :
    Fork.lower (scope.bind current reserved) members choice =
      Fork.lower id members ((Fork.mapNames scope choice).rename current reserved) := by
  rw [Fork.rename, Fork.lower_id_mapNames, Fork.lower_mapNames]
  rfl

/-- An input is lowered by renaming its result in its fork. -/
theorem Statement.lower_input (scope : Scope) (result : String) (choice : Fork Statement) :
    (Statement.input result choice).lower scope =
      Fork.lower id [("await", .array [.string "input"])]
        ((Fork.mapNames scope choice).rename (scope result) Scope.inputName) := by
  rw [Statement.lower, Fork.lower_bind]

/-- The fork that takes a returned value: the branches with the result renamed in them, or the
assignment of the value to the result. -/
def Fork.returning (result : String) : Option (Fork Statement) → Fork Statement
  | some choice => choice.rename result Scope.returnName
  | none => ⟨none, [⟨none, [.set (.name result) (.name Scope.returnName)]⟩]⟩

/-- The start of another program for a result is lowered with the fork that takes the result. -/
theorem Statement.lower_run (scope : Scope) (name : Expr) (args : List Expr) (result : String)
    (choice : Option (Fork Statement)) :
    (Statement.run name args (some result) choice).lower scope = (do
      let call ← name.lowerCallIn scope args
      let handler ← Fork.lower id [("await", .array [.string "return"])]
        (Fork.returning (scope result) (choice.map (Fork.mapNames scope)))
      .ok (.block [call, handler] [])) := by
  cases choice with
  | none => rfl
  | some choice =>
    rw [Statement.lower, Fork.lower_bind]
    rfl

/-- Two scopes that agree on the identifiers of a fork lower it to the same JSON, or to the same
problem. -/
theorem Fork.lower_congr {scope scope' : Scope} {choice : Fork Statement}
    (h : ∀ x, Node.identifier x ∈ Fork.nodes choice → scope x = scope' x)
    (members : List (String × Json)) :
    Fork.lower scope members choice = Fork.lower scope' members choice := by
  rw [← Fork.lower_id_mapNames scope, ← Fork.lower_id_mapNames scope', Fork.mapNames_eq_iff.2 h]

/-! ## Scopes made of results -/

namespace Scope

/-- A scope that takes each name to itself or to a reserved name. -/
def Resolving (scope : Scope) : Prop := ∀ x, scope x = x ∨ Reserved (scope x)

theorem resolving_id : Resolving id := fun _ => Or.inl rfl

variable {scope : Scope} {reserved : String}

theorem Resolving.bind (h : scope.Resolving) (hreserved : Reserved reserved) (current : String) :
    (scope.bind current reserved).Resolving := by
  intro x
  rw [Scope.bind, renamed]
  by_cases hx : scope x = current
  · rw [if_pos hx]
    exact Or.inr hreserved
  · rw [if_neg hx]
    exact h x

/-- Only a name itself becomes that name, unless it is a reserved one. -/
theorem Resolving.ne (h : scope.Resolving) {x y : String} (hy : ¬ Reserved y) (hxy : x ≠ y) :
    scope x ≠ y := by
  intro heq
  rcases h x with hself | hx
  · exact hxy (hself.symm.trans heq)
  · exact hy (heq ▸ hx)

/-- Binding a result leaves a name alone that is neither that result nor reserved. -/
theorem Resolving.bind_eq_self (h : scope.Resolving) {result y : String} (hy : ¬ Reserved y)
    (hresult : result ≠ y) (hself : scope y = y) :
    scope.bind (scope result) reserved y = y := by
  rw [Scope.bind, hself, renamed, if_neg (h.ne hy hresult).symm]

end Scope

end Dialogue
