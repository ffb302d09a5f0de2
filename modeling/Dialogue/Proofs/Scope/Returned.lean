import Dialogue.Proofs.Scope.Context

/-!
# Returned values

A `run` with a result but no branches assigns the value that the other program returns. The same can
be written with branches: one that binds the value under a name of its own and hands it on with an
assignment. The first form is lowered directly and the second through the scope of its branches, yet
at any place of a script they are lowered to the same program, as long as the name is new to the
script (`Script.lower_returned`).

In a scope, the assignment reaches the result unless binding the value has changed what the result
has become (`Fork.lower_handOn`). A new name is unchanged wherever it stands, and nothing else has
become that name, so binding it changes nothing else.
-/

namespace Dialogue

/-- A default branch alone, which assigns a bound value to a name. -/
def Fork.handOn (bound name : String) : Fork Statement :=
  .plain [⟨none, [.set (.list [.name name]) (.name bound)]⟩]

section

variable {scope : Scope} {bound name : String}

theorem Scope.bind_self (scope : Scope) (x reserved : String) :
    scope.bind (scope x) reserved x = reserved := by
  rw [bind, renamed, if_pos rfl]

/-- What a branch that hands on a returned value is lowered to. -/
theorem Fork.lower_handOn (scope : Scope) (bound name : String) :
    Fork.lower (scope.bind (scope bound) Scope.returnName) [("await", .array [.string "return"])]
        (Fork.handOn bound name) =
      .ok (.assignReturn (scope.bind (scope bound) Scope.returnName name)) := by
  have hvalue : (Expr.name (scope.bind (scope bound) Scope.returnName bound)).lower =
      .ok (.string Scope.returnName) := by
    rw [Scope.bind_self, Expr.lower, lowerName, if_neg (by decide)]
  simp only [Fork.handOn, Fork.plain, Fork.lower, Branch.lowerEach, Statement.lowerEach,
    Statement.lower, Target.mapNames, Expr.mapNamesOfList, Expr.mapNames, Target.lowerAssignment,
    Target.lower, Expr.lowerTargets, Expr.lowerTarget, hvalue]
  rfl

/-- In a scope that binding the value does not change for the name, both forms are lowered alike. -/
theorem Statement.lower_run_handOn
    (h : scope.bind (scope bound) Scope.returnName name = scope name) (callee : Expr)
    (args : List Expr) :
    (Statement.run callee args (some name) none).lower scope =
      (Statement.run callee args (some bound) (some (Fork.handOn bound name))).lower scope := by
  rw [Statement.lower, Statement.lower, Fork.lower_handOn, h]
  rfl

end

/-- A returned value that is assigned directly, and one that is bound under a new name and then
assigned, are the same at any place of a script: the whole script is lowered to the same JSON, or to
the same problem. -/
theorem Script.lower_returned (ctx : Context) (callee : Expr) (args : List Expr)
    (name bound : String)
    (hfresh : Node.identifier bound ∉
      Script.nodes (ctx.fill (.run callee args (some name) none)))
    (hbound : ¬ Scope.Reserved bound) :
    Script.lower (ctx.fill (.run callee args (some name) none)) =
      Script.lower (ctx.fill (.run callee args (some bound)
        (some (.plain [⟨none, [.set (.list [.name name]) (.name bound)]⟩])))) := by
  rw [Script.nodes, List.mem_cons, not_or] at hfresh
  have hne : name ≠ bound := by
    rintro rfl
    exact hfresh.2 (ctx.mem_nodesOfList_fill (by simp [Statement.nodes]))
  have hself : ctx.scope id bound = bound :=
    Context.scope_eq_self Scope.resolving_id hbound rfl
      fun hresults => hfresh.2 (Context.results_mem_nodes hresults _)
  have hname : ctx.scope id name ≠ bound :=
    (ctx.resolving_scope Scope.resolving_id).ne hbound hne
  apply ctx.lower_fill_congr
  apply Statement.lower_run_handOn
  rw [hself, Scope.bind, renamed, if_neg hname]

/-- The value goes to a name that is itself bound around the statement, and has become a reserved
name there. -/
theorem Script.lower_returned_bound :
    Script.lower [.input "a" (.plain [⟨none, [.run (.name "f") [.name "a"] (some "a") none]⟩])] =
    Script.lower [.input "a" (.plain [⟨none, [.run (.name "f") [.name "a"] (some "t")
      (some (.plain [⟨none, [.set (.list [.name "a"]) (.name "t")]⟩]))]⟩])] := by
  refine Script.lower_returned (.within [] (.input "a" ⟨none, [], none, []⟩) (.here [] []) [])
    (.name "f") [.name "a"] "a" "t" ?_ (by decide)
  simp [Context.fill, Frame.fill, ForkGap.fill, Script.nodes, Statement.nodesOfList,
    Statement.nodes, Fork.nodes, Branch.nodesOfList, Expr.nodes, Expr.nodesOfList,
    Expr.nodesOfOption, Expr.nodesOfScheme]

end Dialogue
