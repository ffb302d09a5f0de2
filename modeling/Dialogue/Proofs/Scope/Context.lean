import Dialogue.Proofs.Scope.Names

/-!
# Places in a script

A `Context` is a script with a gap where one statement goes, at any depth. Every statement of a
script stands in one (`Context.exists_fill`), and the results that are bound around the gap make
the scope in which whatever fills it is lowered: two statements that are lowered alike there can
take each other's place (`Context.lower_fill_congr`).
-/

namespace Dialogue

/-! ## Gaps -/

/-- A fork in which one branch lacks its body. -/
structure ForkGap where
  scheme : Option (List (String × Expr))
  before : List (Branch Statement)
  condition : Option Expr
  after : List (Branch Statement)

/-- The fork with a body in its gap. -/
def ForkGap.fill (gap : ForkGap) (body : List Statement) : Fork Statement :=
  ⟨gap.scheme, gap.before ++ ⟨gap.condition, body⟩ :: gap.after⟩

/-- A statement in which one body is missing. -/
inductive Frame where
  | fork (gap : ForkGap)
  | input (result : String) (gap : ForkGap)
  | await (condition : Expr)
  | once
  | run (name : Expr) (args : List Expr) (result : Option String) (gap : ForkGap)
  | define (name : String) (params : List String)

namespace Frame

/-- The statement with a body in its gap. -/
def fill (body : List Statement) : Frame → Statement
  | .fork gap => .fork (gap.fill body)
  | .input result gap => .input result (gap.fill body)
  | .await condition => .await condition body
  | .once => .once body
  | .run name args result gap => .run name args result (some (gap.fill body))
  | .define name params => .define name params body

/-- The result that is bound in the gap, if the statement binds one. -/
def result? : Frame → Option String
  | .input result _ => some result
  | .run _ _ result _ => result
  | _ => none

/-- The scope in the gap of a statement that is lowered in a scope. -/
def scope (scope : Scope) : Frame → Scope
  | .input result _ => scope.bind (scope result) Scope.inputName
  | .run _ _ (some result) _ => scope.bind (scope result) Scope.returnName
  | _ => scope

end Frame

/-- A list of statements with a gap for one, there or inside a further statement. -/
inductive Context where
  | here (before after : List Statement)
  | within (before : List Statement) (frame : Frame) (inner : Context) (after : List Statement)

namespace Context

/-- The script with a statement in its gap. -/
def fill (s : Statement) : Context → Script
  | .here before after => before ++ s :: after
  | .within before frame inner after => before ++ frame.fill (inner.fill s) :: after

/-- The results that are bound in the gap. -/
def results : Context → List String
  | .here _ _ => []
  | .within _ frame inner _ => frame.result?.toList ++ inner.results

/-- The scope in the gap of a script that is lowered in a scope. -/
def scope (around : Scope) : Context → Scope
  | .here _ _ => around
  | .within _ frame inner _ => inner.scope (frame.scope around)

end Context

/-! ## Every statement stands in a context -/

section

variable {s : Statement}

mutual

theorem Expr.statement_not_mem_nodes : ∀ e : Expr, Node.statement s ∉ e.nodes
  | .binary _ left right => by
    simp [Expr.nodes, left.statement_not_mem_nodes, right.statement_not_mem_nodes]
  | .not operand => by simp [Expr.nodes, operand.statement_not_mem_nodes]
  | .call callee args => by
    simp [Expr.nodes, callee.statement_not_mem_nodes, Expr.statement_not_mem_nodesOfList args]
  | .member target property => by
    simp [Expr.nodes, target.statement_not_mem_nodes, property.statement_not_mem_nodes]
  | .name _ => by simp [Expr.nodes]
  | .literal _ => by simp [Expr.nodes]
  | .array elements => by simp [Expr.nodes, Expr.statement_not_mem_nodesOfList elements]
  | .object fields => by simp [Expr.nodes, Expr.statement_not_mem_nodesOfFields fields]
  | .spread elements => by simp [Expr.nodes, Expr.statement_not_mem_nodesOfList elements]

theorem Expr.statement_not_mem_nodesOfList : ∀ es : List Expr,
    Node.statement s ∉ Expr.nodesOfList es
  | [] => by simp [Expr.nodesOfList]
  | e :: es => by
    simp [Expr.nodesOfList, e.statement_not_mem_nodes, Expr.statement_not_mem_nodesOfList es]

theorem Expr.statement_not_mem_nodesOfFields : ∀ fields : List (String × Expr),
    Node.statement s ∉ Expr.nodesOfFields fields
  | [] => by simp [Expr.nodesOfFields]
  | (_, e) :: fields => by
    simp [Expr.nodesOfFields, e.statement_not_mem_nodes,
      Expr.statement_not_mem_nodesOfFields fields]

end

theorem Target.statement_not_mem_nodes (target : Target) : Node.statement s ∉ target.nodes := by
  cases target with
  | name x => simp [Target.nodes]
  | list elements => simp [Target.nodes, Expr.statement_not_mem_nodesOfList]
  | edit root keys =>
    simp [Target.nodes, Expr.statement_not_mem_nodes, Expr.statement_not_mem_nodesOfList]

theorem Expr.statement_not_mem_nodesOfOption (condition : Option Expr) :
    Node.statement s ∉ Expr.nodesOfOption condition := by
  cases condition with
  | none => simp [Expr.nodesOfOption]
  | some e => simp [Expr.nodesOfOption, Expr.statement_not_mem_nodes]

theorem Expr.statement_not_mem_nodesOfScheme (scheme : Option (List (String × Expr))) :
    Node.statement s ∉ Expr.nodesOfScheme scheme := by
  cases scheme with
  | none => simp [Expr.nodesOfScheme]
  | some fields => simp [Expr.nodesOfScheme, Expr.statement_not_mem_nodesOfFields]

mutual

theorem Statement.exists_fill : ∀ {t : Statement}, Node.statement s ∈ t.nodes →
    t = s ∨ ∃ (frame : Frame) (ctx : Context), t = frame.fill (ctx.fill s)
  | .fork choice, h => by
    simp only [Statement.nodes, List.mem_cons, Node.statement.injEq] at h
    rcases h with rfl | h
    · exact Or.inl rfl
    · obtain ⟨gap, ctx, rfl⟩ := Fork.exists_fill h
      exact Or.inr ⟨.fork gap, ctx, rfl⟩
  | .input result choice, h => by
    simp only [Statement.nodes, List.mem_cons, Node.statement.injEq, reduceCtorEq, false_or] at h
    rcases h with rfl | h
    · exact Or.inl rfl
    · obtain ⟨gap, ctx, rfl⟩ := Fork.exists_fill h
      exact Or.inr ⟨.input result gap, ctx, rfl⟩
  | .await condition body, h => by
    simp only [Statement.nodes, List.mem_cons, List.mem_append, Node.statement.injEq, reduceCtorEq,
      Expr.statement_not_mem_nodes, false_or] at h
    rcases h with rfl | h
    · exact Or.inl rfl
    · obtain ⟨ctx, rfl⟩ := Statement.exists_fill_list h
      exact Or.inr ⟨.await condition, ctx, rfl⟩
  | .once body, h => by
    simp only [Statement.nodes, List.mem_cons, Node.statement.injEq, reduceCtorEq, false_or] at h
    rcases h with rfl | h
    · exact Or.inl rfl
    · obtain ⟨ctx, rfl⟩ := Statement.exists_fill_list h
      exact Or.inr ⟨.once, ctx, rfl⟩
  | .perform verb value, h => by
    simp only [Statement.nodes, List.mem_cons, Node.statement.injEq,
      Expr.statement_not_mem_nodes, or_false] at h
    exact Or.inl h.symm
  | .set target value, h => by
    simp only [Statement.nodes, List.mem_cons, List.mem_append, Node.statement.injEq,
      Expr.statement_not_mem_nodes, Target.statement_not_mem_nodes, or_false] at h
    exact Or.inl h.symm
  | .run name args result none, h => by
    simp only [Statement.nodes, List.mem_cons, List.mem_append, List.mem_map, Node.statement.injEq,
      Expr.statement_not_mem_nodes, Expr.statement_not_mem_nodesOfList, reduceCtorEq, and_false,
      exists_const, or_self, or_false] at h
    exact Or.inl h.symm
  | .run name args result (some choice), h => by
    simp only [Statement.nodes, List.mem_cons, List.mem_append, List.mem_map, Node.statement.injEq,
      Expr.statement_not_mem_nodes, Expr.statement_not_mem_nodesOfList, reduceCtorEq, and_false,
      exists_const, or_self, false_or] at h
    rcases h with rfl | h
    · exact Or.inl rfl
    · obtain ⟨gap, ctx, rfl⟩ := Fork.exists_fill h
      exact Or.inr ⟨.run name args result gap, ctx, rfl⟩
  | .use name imports, h => by
    simp only [Statement.nodes, List.mem_cons, List.mem_append, List.mem_map, Node.statement.injEq,
      Expr.statement_not_mem_nodes, reduceCtorEq, and_false, exists_false, or_self, or_false] at h
    exact Or.inl h.symm
  | .define name params body, h => by
    simp only [Statement.nodes, List.mem_cons, List.mem_append, List.mem_map, Node.statement.injEq,
      reduceCtorEq, and_false, exists_const, false_or] at h
    rcases h with rfl | h
    · exact Or.inl rfl
    · obtain ⟨ctx, rfl⟩ := Statement.exists_fill_list h
      exact Or.inr ⟨.define name params, ctx, rfl⟩

theorem Fork.exists_fill : ∀ {choice : Fork Statement}, Node.statement s ∈ Fork.nodes choice →
    ∃ (gap : ForkGap) (ctx : Context), choice = gap.fill (ctx.fill s)
  | ⟨scheme, branches⟩, h => by
    simp only [Fork.nodes, List.mem_cons, List.mem_append, reduceCtorEq,
      Expr.statement_not_mem_nodesOfScheme, false_or] at h
    obtain ⟨before, condition, after, ctx, rfl⟩ := Branch.exists_fill h
    exact ⟨⟨scheme, before, condition, after⟩, ctx, rfl⟩

theorem Branch.exists_fill : ∀ {branches : List (Branch Statement)},
    Node.statement s ∈ Branch.nodesOfList branches →
    ∃ before condition after, ∃ ctx : Context,
      branches = before ++ ⟨condition, ctx.fill s⟩ :: after
  | [], h => by simp [Branch.nodesOfList] at h
  | ⟨condition, body⟩ :: branches, h => by
    simp only [Branch.nodesOfList, List.mem_cons, List.mem_append, List.cons_append, reduceCtorEq,
      Expr.statement_not_mem_nodesOfOption, false_or] at h
    rcases h with h | h
    · obtain ⟨ctx, rfl⟩ := Statement.exists_fill_list h
      exact ⟨[], condition, branches, ctx, rfl⟩
    · obtain ⟨before, found, after, ctx, rfl⟩ := Branch.exists_fill h
      exact ⟨⟨condition, body⟩ :: before, found, after, ctx, rfl⟩

theorem Statement.exists_fill_list : ∀ {statements : List Statement},
    Node.statement s ∈ Statement.nodesOfList statements →
    ∃ ctx : Context, statements = ctx.fill s
  | [], h => by simp [Statement.nodesOfList] at h
  | t :: statements, h => by
    rw [Statement.nodesOfList, List.mem_append] at h
    rcases h with h | h
    · rcases Statement.exists_fill h with rfl | ⟨frame, ctx, rfl⟩
      · exact ⟨.here [] statements, rfl⟩
      · exact ⟨.within [] frame ctx statements, rfl⟩
    · obtain ⟨ctx, rfl⟩ := Statement.exists_fill_list h
      cases ctx with
      | here before after => exact ⟨.here (t :: before) after, rfl⟩
      | within before frame inner after => exact ⟨.within (t :: before) frame inner after, rfl⟩

end

/-- Every statement of a script, at any depth, stands in a context. -/
theorem Context.exists_fill {P : Script} (h : Node.statement s ∈ P.nodes) :
    ∃ ctx : Context, P = ctx.fill s := by
  rw [Script.nodes, List.mem_cons] at h
  rcases h with h | h
  · cases h
  · exact Statement.exists_fill_list h

end

/-! ## Lowering what fills a gap -/

theorem Statement.lowerEach_append_congr {scope : Scope} {s s' : Statement}
    (h : s.lower scope = s'.lower scope) (before after : List Statement) :
    Statement.lowerEach scope (before ++ s :: after) =
      Statement.lowerEach scope (before ++ s' :: after) := by
  induction before with
  | nil => rw [List.nil_append, List.nil_append, Statement.lowerEach, Statement.lowerEach, h]
  | cons t before ih =>
    rw [List.cons_append, List.cons_append, Statement.lowerEach, Statement.lowerEach, ih]

section

variable {scope : Scope} {body body' : List Statement}

theorem Branch.lowerEach_append_congr
    (h : Statement.lowerEach scope body = Statement.lowerEach scope body')
    (before after : List (Branch Statement)) (condition : Option Expr) :
    Branch.lowerEach scope (before ++ ⟨condition, body⟩ :: after) =
      Branch.lowerEach scope (before ++ ⟨condition, body'⟩ :: after) := by
  induction before with
  | nil => rw [List.nil_append, List.nil_append, Branch.lowerEach, Branch.lowerEach, h]
  | cons branch before ih =>
    obtain ⟨found, statements⟩ := branch
    rw [List.cons_append, List.cons_append, Branch.lowerEach, Branch.lowerEach, ih]

theorem ForkGap.lower_fill_congr
    (h : Statement.lowerEach scope body = Statement.lowerEach scope body') (gap : ForkGap)
    (members : List (String × Json)) :
    Fork.lower scope members (gap.fill body) = Fork.lower scope members (gap.fill body') := by
  rw [ForkGap.fill, ForkGap.fill, Fork.lower, Fork.lower, Branch.lowerEach_append_congr h]

theorem Frame.lower_fill_congr (frame : Frame)
    (h : Statement.lowerEach (frame.scope scope) body =
      Statement.lowerEach (frame.scope scope) body') :
    (frame.fill body).lower scope = (frame.fill body').lower scope := by
  cases frame with
  | fork gap => exact gap.lower_fill_congr h []
  | input result gap => exact gap.lower_fill_congr h _
  | await condition =>
    simp only [Frame.scope] at h
    rw [Frame.fill, Frame.fill, Statement.lower, Statement.lower, h]
  | once =>
    simp only [Frame.scope] at h
    rw [Frame.fill, Frame.fill, Statement.lower, Statement.lower, h]
  | run name args result gap =>
    cases result with
    | none => rw [Frame.fill, Frame.fill, Statement.lower, Statement.lower]
    | some result =>
      simp only [Frame.scope] at h
      rw [Frame.fill, Frame.fill, Statement.lower, Statement.lower, gap.lower_fill_congr h]
  | define name params =>
    simp only [Frame.scope] at h
    rw [Frame.fill, Frame.fill, Statement.lower, Statement.lower, h]

end

namespace Context

theorem lowerEach_fill_congr {s s' : Statement} (ctx : Context) {scope : Scope}
    (h : s.lower (ctx.scope scope) = s'.lower (ctx.scope scope)) :
    Statement.lowerEach scope (ctx.fill s) = Statement.lowerEach scope (ctx.fill s') := by
  induction ctx generalizing scope with
  | here before after => exact Statement.lowerEach_append_congr h before after
  | within before frame inner after ih =>
    exact Statement.lowerEach_append_congr (frame.lower_fill_congr (ih h)) before after

/-- Statements that are lowered alike in the scope of a gap fill it alike. -/
theorem lower_fill_congr {s s' : Statement} (ctx : Context)
    (h : s.lower (ctx.scope id) = s'.lower (ctx.scope id)) :
    Script.lower (ctx.fill s) = Script.lower (ctx.fill s') := by
  rw [Script.lower, Script.lower, ctx.lowerEach_fill_congr h]

/-! ## Names around a gap -/

end Context

theorem Statement.nodesOfList_append (before after : List Statement) :
    Statement.nodesOfList (before ++ after) =
      Statement.nodesOfList before ++ Statement.nodesOfList after := by
  induction before with
  | nil => rfl
  | cons s before ih => simp [Statement.nodesOfList, ih]

theorem Branch.nodesOfList_append (before after : List (Branch Statement)) :
    Branch.nodesOfList (before ++ after) =
      Branch.nodesOfList before ++ Branch.nodesOfList after := by
  induction before with
  | nil => rfl
  | cons branch before ih => simp [Branch.nodesOfList, ih]

theorem ForkGap.mem_nodes_fill {node : Node} {body : List Statement}
    (h : node ∈ Statement.nodesOfList body) (gap : ForkGap) :
    node ∈ Fork.nodes (gap.fill body) := by
  simp [ForkGap.fill, Fork.nodes, Branch.nodesOfList_append, Branch.nodesOfList, h]

theorem Frame.mem_nodes_fill {node : Node} {body : List Statement}
    (h : node ∈ Statement.nodesOfList body) (frame : Frame) : node ∈ (frame.fill body).nodes := by
  cases frame with
  | fork gap => simp [Frame.fill, Statement.nodes, gap.mem_nodes_fill h]
  | input result gap => simp [Frame.fill, Statement.nodes, gap.mem_nodes_fill h]
  | await condition => simp [Frame.fill, Statement.nodes, h]
  | once => simp [Frame.fill, Statement.nodes, h]
  | run name args result gap => simp [Frame.fill, Statement.nodes, gap.mem_nodes_fill h]
  | define name params => simp [Frame.fill, Statement.nodes, h]

theorem Frame.result_mem_nodes {x : String} {frame : Frame} (h : x ∈ frame.result?)
    (body : List Statement) : Node.identifier x ∈ (frame.fill body).nodes := by
  cases frame with
  | input result gap =>
    cases h
    simp [Frame.fill, Statement.nodes]
  | run name args result gap =>
    cases h
    simp [Frame.fill, Statement.nodes]
  | _ => cases h

namespace Context

theorem mem_nodesOfList_fill {node : Node} {s : Statement} (h : node ∈ s.nodes) (ctx : Context) :
    node ∈ Statement.nodesOfList (ctx.fill s) := by
  induction ctx with
  | here before after => simp [fill, Statement.nodesOfList_append, Statement.nodesOfList, h]
  | within before frame inner after ih =>
    simp [fill, Statement.nodesOfList_append, Statement.nodesOfList, frame.mem_nodes_fill ih]

/-- The results around a gap are identifiers of the script. -/
theorem results_mem_nodes {x : String} {ctx : Context} (h : x ∈ ctx.results) (s : Statement) :
    Node.identifier x ∈ Statement.nodesOfList (ctx.fill s) := by
  induction ctx with
  | here before after => exact absurd h List.not_mem_nil
  | within before frame inner after ih =>
    rw [results, List.mem_append, Option.mem_toList] at h
    simp only [fill, Statement.nodesOfList_append, Statement.nodesOfList, List.mem_append]
    rcases h with h | h
    · exact Or.inr (Or.inl (Frame.result_mem_nodes h _))
    · exact Or.inr (Or.inl (frame.mem_nodes_fill (ih h)))

end Context

/-! ## The scope in a gap -/

section

variable {around : Scope} {y : String}

theorem Frame.resolving_scope (h : around.Resolving) (frame : Frame) :
    (frame.scope around).Resolving := by
  cases frame with
  | input result gap => exact h.bind (Or.inl rfl) _
  | run name args result gap =>
    cases result with
    | none => exact h
    | some result => exact h.bind (Or.inr rfl) _
  | _ => exact h

theorem Frame.scope_eq_self (h : around.Resolving) (hy : ¬ Scope.Reserved y)
    (hself : around y = y) {frame : Frame} (hresult : y ∉ frame.result?) :
    frame.scope around y = y := by
  cases frame with
  | input result gap =>
    exact h.bind_eq_self hy (fun heq => hresult (congrArg some heq)) hself
  | run name args result gap =>
    cases result with
    | none => exact hself
    | some result => exact h.bind_eq_self hy (fun heq => hresult (congrArg some heq)) hself
  | _ => exact hself

namespace Context

theorem resolving_scope (h : around.Resolving) (ctx : Context) : (ctx.scope around).Resolving := by
  induction ctx generalizing around with
  | here before after => exact h
  | within before frame inner after ih => exact ih (frame.resolving_scope h)

/-- A name that is no result around a gap is unchanged in the gap. -/
theorem scope_eq_self (h : around.Resolving) (hy : ¬ Scope.Reserved y) (hself : around y = y)
    {ctx : Context} (hresults : y ∉ ctx.results) : ctx.scope around y = y := by
  induction ctx generalizing around with
  | here before after => exact hself
  | within before frame inner after ih =>
    simp only [results, List.mem_append, Option.mem_toList, not_or] at hresults
    exact ih (frame.resolving_scope h) (Frame.scope_eq_self h hy hself hresults.1) hresults.2

end Context

end

end Dialogue
