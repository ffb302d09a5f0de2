import Dialogue.Proofs.Scope.Names

/-!
# Lexical resolution

A plainer account of results: one walk over a script replaces each identifier by what its name is
bound to where it stands (`Statement.resolve`), and the tree that comes out is lowered as it is
(`Statement.emit`), with no renaming at all.

The scopes of lowering agree with it wherever no result is bound again under its own name
(`Script.lower_eq_emit_resolve`). The reason is one equation, `Environment.name_cons`: what has
become the name of such a result is that name and no other.
-/

namespace Dialogue

/-! ## Environments -/

/-- The results that are bound around a place, the innermost first, with their reserved names. -/
abbrev Environment := List (String × String)

namespace Environment

/-- What a name is bound to, or the name itself. -/
def name (env : Environment) (x : String) : String := (env.lookup x).getD x

/-- The names that are bound. -/
def bound (env : Environment) : List String := env.map Prod.fst

/-- Every name is bound to a reserved one. -/
def Reserving (env : Environment) : Prop := ∀ entry ∈ env, Scope.Reserved entry.2

variable {env : Environment}

theorem name_of_not_mem_bound {x : String} (h : x ∉ env.bound) : env.name x = x := by
  have hlookup : env.lookup x = none := by
    rw [List.lookup_eq_none_iff]
    intro entry hentry
    rw [bne_iff_ne]
    rintro rfl
    exact h (List.mem_map_of_mem hentry)
  rw [name, hlookup, Option.getD_none]

theorem name_eq_or_reserved (henv : env.Reserving) (x : String) :
    env.name x = x ∨ Scope.Reserved (env.name x) := by
  cases hlookup : env.lookup x with
  | none => exact Or.inl (by rw [name, hlookup, Option.getD_none])
  | some reserved =>
    right
    obtain ⟨before, after, rfl, -⟩ := List.lookup_eq_some_iff.1 hlookup
    have hentry := henv (x, reserved) (List.mem_append_right before List.mem_cons_self)
    rw [name, hlookup, Option.getD_some]
    exact hentry

/-- Binding a result that is not bound yet renames exactly that result. -/
theorem name_cons (henv : env.Reserving) {result reserved : String} (hbound : result ∉ env.bound)
    (hresult : ¬ Scope.Reserved result) :
    name ((result, reserved) :: env) = Scope.bind env.name (env.name result) reserved := by
  funext x
  rw [Scope.bind, name_of_not_mem_bound hbound, renamed]
  by_cases hx : x = result
  · subst hx
    rw [name_of_not_mem_bound hbound, if_pos rfl, name, List.lookup_cons_self, Option.getD_some]
  · have hne : env.name x ≠ result := by
      intro heq
      rcases name_eq_or_reserved henv x with hself | hreserved
      · exact hx (hself.symm.trans heq)
      · exact hresult (heq ▸ hreserved)
    have hbeq : (x == result) = false := beq_false_of_ne hx
    rw [if_neg hne, name, name, List.lookup_cons, hbeq]

theorem Reserving.cons (henv : env.Reserving) (result : String) {reserved : String}
    (h : Scope.Reserved reserved) : Reserving ((result, reserved) :: env) := by
  intro entry hentry
  rcases List.mem_cons.1 hentry with rfl | hentry
  · exact h
  · exact henv entry hentry

end Environment

/-! ## Resolving -/

mutual

/-- A statement in which every identifier is what its name is bound to. A result is bound in the
branches of its fork alone. -/
def Statement.resolve (env : Environment) : Statement → Statement
  | .fork choice => .fork (Fork.resolve env choice)
  | .input result choice =>
    .input (env.name result) (Fork.resolve ((result, Scope.inputName) :: env) choice)
  | .await condition body =>
    .await (condition.mapNames env.name) (Statement.resolveEach env body)
  | .once body => .once (Statement.resolveEach env body)
  | .perform verb value => .perform verb (value.mapNames env.name)
  | .set target value => .set (target.mapNames env.name) (value.mapNames env.name)
  | .run name args result none =>
    .run (name.mapNames env.name) (Expr.mapNamesOfList env.name args) (result.map env.name) none
  | .run name args none (some choice) =>
    .run (name.mapNames env.name) (Expr.mapNamesOfList env.name args) none
      (some (Fork.resolve env choice))
  | .run name args (some result) (some choice) =>
    .run (name.mapNames env.name) (Expr.mapNamesOfList env.name args) (some (env.name result))
      (some (Fork.resolve ((result, Scope.returnName) :: env) choice))
  | .use name imports => .use (name.mapNames env.name) imports
  | .define name params body =>
    .define (env.name name) (params.map env.name) (Statement.resolveEach env body)

/-- A fork in which every identifier is what its name is bound to. -/
def Fork.resolve (env : Environment) : Fork Statement → Fork Statement
  | ⟨scheme, branches⟩ =>
    ⟨scheme.map (Expr.mapNamesOfFields env.name), Branch.resolveEach env branches⟩

/-- Branches in which every identifier is what its name is bound to. -/
def Branch.resolveEach (env : Environment) : List (Branch Statement) → List (Branch Statement)
  | [] => []
  | ⟨condition, body⟩ :: branches =>
    ⟨condition.map (Expr.mapNames env.name), Statement.resolveEach env body⟩ ::
      Branch.resolveEach env branches

/-- Statements in which every identifier is what its name is bound to. -/
def Statement.resolveEach (env : Environment) : List Statement → List Statement
  | [] => []
  | statement :: statements => statement.resolve env :: Statement.resolveEach env statements

end

/-- A script in which every identifier is what its name is bound to. -/
def Script.resolve (script : Script) : Script := Statement.resolveEach [] script

/-! ## Lowering without renaming -/

/-- An optional expression as JSON. -/
def Expr.emitOption : Option Expr → Except Problem (Option Json)
  | none => .ok none
  | some e => do
    let value ← e.lower
    .ok (some value)

/-- The data of a fork as JSON. -/
def Expr.emitScheme : Option (List (String × Expr)) → Except Problem (Option Json)
  | none => .ok none
  | some fields => do
    let value ← (Expr.object fields).lower
    .ok (some value)

/-- The start of another program as JSON. -/
def Expr.emitCall (name : Expr) (args : List Expr) : Except Problem Json := do
  let name ← name.lower
  let args ← Expr.lowerList args
  .ok (.object [("@run", name), ("args", args)])

mutual

/-- A statement as JSON, with its names as they are. -/
def Statement.emit : Statement → Except Problem Json
  | .fork choice => Fork.emit [] choice
  | .input _ choice => Fork.emit [("await", .array [.string "input"])] choice
  | .await condition body => do
    let statements ← Statement.emitEach body
    let condition ← condition.lower
    .ok (.block statements [("await", condition)])
  | .once body => do
    let statements ← Statement.emitEach body
    .ok (.block statements [("once", .bool true)])
  | .perform verb value => do
    let value ← value.lower
    .ok (.object [(verb.tag, value)])
  | .set target value => target.lowerAssignment value
  | .run name args none _ => do
    let call ← name.emitCall args
    .ok (.block [call] [])
  | .run name args (some result) none => do
    let call ← name.emitCall args
    .ok (.block [call, .assignReturn result] [])
  | .run name args (some _) (some choice) => do
    let call ← name.emitCall args
    let handler ← Fork.emit [("await", .array [.string "return"])] choice
    .ok (.block [call, handler] [])
  | .use name imports => do
    let name ← name.lower
    .ok (.object [("@use", name), ("import", .array (imports.map Literal.lower))])
  | .define name params body => do
    let statements ← Statement.emitEach body
    .ok (.object [("@def", .array ((name :: params).map fun x => .string (quoted x))),
      ("val", .block statements [])])

/-- A fork as JSON, with its names as they are and with further members. -/
def Fork.emit (members : List (String × Json)) : Fork Statement → Except Problem Json
  | ⟨scheme, branches⟩ => do
    let branches ← Branch.emitEach branches
    let scheme ← Expr.emitScheme scheme
    .ok (.fork branches (optionalMember "scheme" scheme ++ members))

/-- Each of a list of branches as JSON, with its names as they are. -/
def Branch.emitEach : List (Branch Statement) → Except Problem (List Json)
  | [] => .ok []
  | ⟨condition, body⟩ :: branches => do
    let statements ← Statement.emitEach body
    let condition ← Expr.emitOption condition
    let others ← Branch.emitEach branches
    .ok (.block statements (optionalMember "if" condition) :: others)

/-- Each of a list of statements as JSON, with its names as they are. -/
def Statement.emitEach : List Statement → Except Problem (List Json)
  | [] => .ok []
  | statement :: statements => do
    let first ← statement.emit
    let others ← Statement.emitEach statements
    .ok (first :: others)

end

/-- A script as JSON, with its names as they are. -/
def Script.emit (script : Script) : Except Problem Json := do
  let statements ← Statement.emitEach script
  .ok (.block statements [])

/-! ## Results that are bound once -/

mutual

/-- No result in a statement has the name of a result around it, given the names around. -/
def Statement.Unshadowed (bound : List String) : Statement → Prop
  | .fork choice => Fork.Unshadowed bound choice
  | .input result choice => result ∉ bound ∧ Fork.Unshadowed (result :: bound) choice
  | .await _ body => Statement.UnshadowedEach bound body
  | .once body => Statement.UnshadowedEach bound body
  | .perform _ _ => True
  | .set _ _ => True
  | .run _ _ _ none => True
  | .run _ _ none (some choice) => Fork.Unshadowed bound choice
  | .run _ _ (some result) (some choice) =>
    result ∉ bound ∧ Fork.Unshadowed (result :: bound) choice
  | .use _ _ => True
  | .define _ _ body => Statement.UnshadowedEach bound body

/-- No result in a fork has the name of a result around it. -/
def Fork.Unshadowed (bound : List String) : Fork Statement → Prop
  | ⟨_, branches⟩ => Branch.UnshadowedEach bound branches

/-- No result in some branches has the name of a result around it. -/
def Branch.UnshadowedEach (bound : List String) : List (Branch Statement) → Prop
  | [] => True
  | ⟨_, body⟩ :: branches =>
    Statement.UnshadowedEach bound body ∧ Branch.UnshadowedEach bound branches

/-- No result in some statements has the name of a result around it. -/
def Statement.UnshadowedEach (bound : List String) : List Statement → Prop
  | [] => True
  | statement :: statements =>
    statement.Unshadowed bound ∧ Statement.UnshadowedEach bound statements

end

/-- No result in a script has the name of a result around it. -/
def Script.Unshadowed (script : Script) : Prop := Statement.UnshadowedEach [] script

/-! ## Agreement -/

section

variable (scope : Scope)

theorem Expr.emitOption_map (condition : Option Expr) :
    Expr.emitOption (condition.map (Expr.mapNames scope)) = Expr.lowerOptionIn scope condition := by
  cases condition with
  | none => rfl
  | some e => rfl

theorem Expr.emitScheme_map (scheme : Option (List (String × Expr))) :
    Expr.emitScheme (scheme.map (Expr.mapNamesOfFields scope)) =
      Expr.lowerSchemeIn scope scheme := by
  cases scheme with
  | none => rfl
  | some fields =>
    rw [Option.map_some, Expr.emitScheme, Expr.lowerSchemeIn, Expr.lowerIn, Expr.mapNames]

theorem Expr.emitCall_mapNames (name : Expr) (args : List Expr) :
    (name.mapNames scope).emitCall (Expr.mapNamesOfList scope args) =
      name.lowerCallIn scope args := rfl

end

/-- The scope in which a fork is lowered is the one that its environment gives. -/
theorem Environment.bind_name {env : Environment} (henv : env.Reserving) {result : String}
    (hbound : result ∉ env.bound) (hresult : (Node.identifier result).Unreserved)
    (reserved : String) :
    Scope.bind env.name (env.name result) reserved = name ((result, reserved) :: env) :=
  (name_cons henv hbound (hresult result rfl)).symm

mutual

theorem Statement.emit_resolve : ∀ (s : Statement) {env : Environment}, env.Reserving →
    s.Unshadowed env.bound → (∀ node ∈ s.nodes, node.Unreserved) →
    (s.resolve env).emit = s.lower env.name
  | .fork choice, env, henv, hs, hnodes => by
    rw [Statement.nodes, List.forall_mem_cons] at hnodes
    rw [Statement.resolve, Statement.emit, Statement.lower,
      Fork.emit_resolve choice henv hs hnodes.2]
  | .input result choice, env, henv, hs, hnodes => by
    simp only [Statement.nodes, List.forall_mem_cons] at hnodes
    obtain ⟨-, hresult, hnodes⟩ := hnodes
    rw [Statement.resolve, Statement.emit, Statement.lower, Environment.bind_name henv hs.1 hresult,
      Fork.emit_resolve choice (henv.cons result (Or.inl rfl)) hs.2 hnodes]
  | .await condition body, env, henv, hs, hnodes => by
    simp only [Statement.nodes, List.forall_mem_cons, List.forall_mem_append] at hnodes
    rw [Statement.resolve, Statement.emit, Statement.lower,
      Statement.emitEach_resolveEach body henv hs hnodes.2.2.2]
    rfl
  | .once body, env, henv, hs, hnodes => by
    simp only [Statement.nodes, List.forall_mem_cons] at hnodes
    rw [Statement.resolve, Statement.emit, Statement.lower,
      Statement.emitEach_resolveEach body henv hs hnodes.2.2]
  | .perform verb value, env, _, _, _ => rfl
  | .set target value, env, _, _, _ => rfl
  | .run name args none none, env, _, _, _ => rfl
  | .run name args (some result) none, env, _, _, _ => rfl
  | .run name args none (some choice), env, _, _, _ => rfl
  | .run name args (some result) (some choice), env, henv, hs, hnodes => by
    simp only [Statement.nodes, List.forall_mem_cons, List.forall_mem_append, Option.toList_some,
      List.map_cons] at hnodes
    obtain ⟨-, ⟨-, hresult, -⟩, hnodes⟩ := hnodes
    rw [Statement.resolve, Statement.emit, Statement.lower, Environment.bind_name henv hs.1 hresult,
      Fork.emit_resolve choice (henv.cons result (Or.inr rfl)) hs.2 hnodes,
      Expr.emitCall_mapNames]
  | .use name imports, env, _, _, _ => rfl
  | .define name params body, env, henv, hs, hnodes => by
    simp only [Statement.nodes, List.forall_mem_cons, List.forall_mem_append] at hnodes
    rw [Statement.resolve, Statement.emit, Statement.lower,
      Statement.emitEach_resolveEach body henv hs hnodes.2.2.2.2, ← List.map_cons, List.map_map]
    rfl

theorem Fork.emit_resolve : ∀ (choice : Fork Statement) {env : Environment}
    {members : List (String × Json)}, env.Reserving → Fork.Unshadowed env.bound choice →
    (∀ node ∈ Fork.nodes choice, node.Unreserved) →
    Fork.emit members (Fork.resolve env choice) = Fork.lower env.name members choice
  | ⟨scheme, branches⟩, env, members, henv, hs, hnodes => by
    simp only [Fork.nodes, List.forall_mem_cons, List.forall_mem_append] at hnodes
    rw [Fork.resolve, Fork.emit, Fork.lower,
      Branch.emitEach_resolveEach branches henv hs hnodes.2.2, Expr.emitScheme_map]

theorem Branch.emitEach_resolveEach : ∀ (branches : List (Branch Statement)) {env : Environment},
    env.Reserving → Branch.UnshadowedEach env.bound branches →
    (∀ node ∈ Branch.nodesOfList branches, node.Unreserved) →
    Branch.emitEach (Branch.resolveEach env branches) = Branch.lowerEach env.name branches
  | [], _, _, _, _ => rfl
  | ⟨condition, body⟩ :: branches, env, henv, hs, hnodes => by
    simp only [Branch.nodesOfList, List.forall_mem_cons, List.forall_mem_append,
      List.cons_append] at hnodes
    obtain ⟨-, ⟨-, -, hbody⟩, hothers⟩ := hnodes
    rw [Branch.resolveEach, Branch.emitEach, Branch.lowerEach,
      Statement.emitEach_resolveEach body henv hs.1 hbody, Expr.emitOption_map,
      Branch.emitEach_resolveEach branches henv hs.2 hothers]

theorem Statement.emitEach_resolveEach : ∀ (statements : List Statement) {env : Environment},
    env.Reserving → Statement.UnshadowedEach env.bound statements →
    (∀ node ∈ Statement.nodesOfList statements, node.Unreserved) →
    Statement.emitEach (Statement.resolveEach env statements) =
      Statement.lowerEach env.name statements
  | [], _, _, _, _ => rfl
  | s :: statements, env, henv, hs, hnodes => by
    simp only [Statement.nodesOfList, List.forall_mem_append] at hnodes
    rw [Statement.resolveEach, Statement.emitEach, Statement.lowerEach,
      Statement.emit_resolve s henv hs.1 hnodes.1,
      Statement.emitEach_resolveEach statements henv hs.2 hnodes.2]

end

/-- Where no identifier has a reserved name and no result is bound again under its own name,
lowering a script is resolving it and then lowering it as it is: the JSON or the problem is the
same. -/
theorem Script.lower_eq_emit_resolve (P : Script)
    (hreserved : ∀ node ∈ P.nodes, node.Unreserved) (hbound : P.Unshadowed) :
    P.lower = P.resolve.emit := by
  rw [Script.nodes, List.forall_mem_cons] at hreserved
  have hempty : Environment.Reserving [] := fun entry hentry => absurd hentry List.not_mem_nil
  have hagree := Statement.emitEach_resolveEach P hempty hbound hreserved.2
  have hid : Environment.name [] = id := rfl
  rw [hid] at hagree
  rw [Script.lower, Script.emit, Script.resolve, hagree]

/-- A result inside the branches of another, which mention both. -/
theorem Script.lower_eq_emit_resolve_nested :
    Script.lower [.input "a" (.plain [⟨some (.name "a"),
      [.run (.name "f") [.name "a"] (some "b") (some (.plain [⟨none,
        [.set (.list [.name "c"]) (.binary .add (.name "a") (.name "b"))]⟩]))]⟩])] =
    Script.emit [.input "a" (.plain [⟨some (.name "_nlu"),
      [.run (.name "f") [.name "_nlu"] (some "b") (some (.plain [⟨none,
        [.set (.list [.name "c"]) (.binary .add (.name "_nlu") (.name "_return"))]⟩]))]⟩])] := by
  refine Script.lower_eq_emit_resolve _ ?reserved ?bound
  case reserved => decide
  case bound => simp [Script.Unshadowed, Statement.UnshadowedEach, Statement.Unshadowed,
    Fork.plain, Fork.Unshadowed, Branch.UnshadowedEach]

end Dialogue
