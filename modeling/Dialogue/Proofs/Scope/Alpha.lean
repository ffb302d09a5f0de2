import Dialogue.Proofs.Scope.Context

/-!
# Renaming a result

The result of an `input`, or of a `run` that has branches, is meant to be a bound name: another
name for it, used throughout the branches, should give the same program for the runtime. That
holds unless the result hides one from further out. A scope takes all names that have become one
name together, so hiding a result can rename others with it: `Scope.Conflates` says which.
`Script.lower_alpha` proves that these are the only exceptions, at any depth of a script, and
`Script.lower_alpha_fails` that they are exceptions.
-/

namespace Dialogue

/-! ## Statements that bind a result -/

/-- A statement that binds a result in the branches of its fork. -/
inductive Binder where
  | input
  | run (name : Expr) (args : List Expr)

namespace Binder

/-- The statement with a result and a fork. -/
def statement (result : String) (choice : Fork Statement) : Binder → Statement
  | .input => .input result choice
  | .run name args => .run name args (some result) (some choice)

/-- The reserved name of the result. -/
def reserved : Binder → String
  | .input => Scope.inputName
  | .run _ _ => Scope.returnName

theorem reserved_reserved (binder : Binder) : Scope.Reserved binder.reserved := by
  cases binder with
  | input => exact Or.inl rfl
  | run name args => exact Or.inr rfl

/-- The fork with the names that it is lowered with, in a scope. -/
def forkIn (scope : Scope) (result : String) (choice : Fork Statement) (binder : Binder) :
    Fork Statement :=
  Fork.mapNames (scope.bind (scope result) binder.reserved) choice

theorem result_mem_nodes (binder : Binder) (result : String) (choice : Fork Statement) :
    Node.identifier result ∈ (binder.statement result choice).nodes := by
  cases binder with
  | input => simp [statement, Statement.nodes]
  | run name args => simp [statement, Statement.nodes]

theorem mem_nodes_statement {node : Node} {choice : Fork Statement}
    (h : node ∈ Fork.nodes choice) (binder : Binder) (result : String) :
    node ∈ (binder.statement result choice).nodes := by
  cases binder with
  | input => simp [statement, Statement.nodes, h]
  | run name args => simp [statement, Statement.nodes, h]

/-- The fork of a statement matters only with the names that it is lowered with. -/
theorem lower_congr {scope : Scope} {result result' : String} {choice choice' : Fork Statement}
    (binder : Binder)
    (h : binder.forkIn scope result choice = binder.forkIn scope result' choice') :
    (binder.statement result choice).lower scope =
      (binder.statement result' choice').lower scope := by
  have hfork (members : List (String × Json)) :
      Fork.lower (scope.bind (scope result) binder.reserved) members choice =
        Fork.lower (scope.bind (scope result') binder.reserved) members choice' := by
    have hlower := congrArg (Fork.lower id members) h
    rw [forkIn, forkIn, Fork.lower_id_mapNames, Fork.lower_id_mapNames] at hlower
    exact hlower
  cases binder with
  | input => exact hfork _
  | run name args =>
    simp only [reserved] at hfork
    rw [statement, statement, Statement.lower, Statement.lower, hfork]

end Binder

/-! ## Names that are taken together -/

namespace Scope

/-- Whether binding a result to a reserved name renames another name with it: one that has become
the same name as the result, and is about to become a different one. -/
def Conflates (scope : Scope) (result reserved x : String) : Prop :=
  x ≠ result ∧ scope x = scope result ∧ scope result ≠ reserved

instance (scope : Scope) (result reserved x : String) :
    Decidable (scope.Conflates result reserved x) :=
  inferInstanceAs (Decidable (x ≠ result ∧ scope x = scope result ∧ scope result ≠ reserved))

variable {scope : Scope} {y : String}

/-- Under a fresh name for a result, all other names are as they were. -/
theorem bind_fresh_eq (h : scope.Resolving) (hy : ¬ Reserved y) (hself : scope y = y)
    {result x : String} (hx : x ≠ y) (hresult : x ≠ result) (reserved : String) :
    (scope.bind (scope y) reserved ∘ renamed result y) x = scope x := by
  rw [Function.comp_apply, renamed, if_neg hresult, Scope.bind, hself, renamed,
    if_neg (h.ne hy hx)]

/-- A fresh name for a result makes no difference to a name, unless binding the result renames
that name with it. -/
theorem bind_eq_bind_fresh_iff (h : scope.Resolving) (hy : ¬ Reserved y) (hself : scope y = y)
    {result reserved x : String} (hx : x ≠ y) :
    scope.bind (scope result) reserved x =
        (scope.bind (scope y) reserved ∘ renamed result y) x ↔
      ¬ scope.Conflates result reserved x := by
  by_cases hresult : x = result
  · subst hresult
    simp [Scope.bind, renamed, Conflates]
  · rw [bind_fresh_eq h hy hself hx hresult, Scope.bind, renamed]
    by_cases hsame : scope x = scope result
    · rw [if_pos hsame, hsame]
      simp [Conflates, hresult, hsame, eq_comm]
    · rw [if_neg hsame]
      simp [Conflates, hsame]

/-- A name that is taken together with a result has become a reserved name before. -/
theorem Conflates.reserved (h : scope.Resolving) {result reserved x : String}
    (hx : scope.Conflates result reserved x) : Reserved (scope x) := by
  obtain ⟨hne, hsame, -⟩ := hx
  rcases h x with hself | hreserved
  · rcases h result with hresult | hreserved
    · exact absurd (hself.symm.trans (hsame.trans hresult)) hne
    · rw [hsame]
      exact hreserved
  · exact hreserved

end Scope

/-- The fork that acts on a name and does nothing else. -/
def Fork.act (x : String) : Fork Statement := .plain [⟨none, [.perform .act (.name x)]⟩]

theorem Fork.lower_act (scope : Scope) (members : List (String × Json)) (x : String) :
    Fork.lower scope members (Fork.act x) =
      .ok (.fork [.block [.object [("@act", lowerName (scope x))]] []] members) := rfl

theorem lowerName_of_reserved {x : String} (h : Scope.Reserved x) : lowerName x = .string x := by
  rcases h with rfl | rfl
  · rfl
  · rfl

/-- Forks that act on names with different reserved names are lowered differently. -/
theorem Fork.lower_act_ne {scope scope' : Scope} {x : String} (h : Scope.Reserved (scope x))
    (h' : Scope.Reserved (scope' x)) (hne : scope x ≠ scope' x)
    (members : List (String × Json)) :
    Fork.lower scope members (Fork.act x) ≠ Fork.lower scope' members (Fork.act x) := by
  rw [Fork.lower_act, Fork.lower_act, lowerName_of_reserved h, lowerName_of_reserved h']
  simpa [Json.fork, Json.block] using hne

/-! ## Another name for a result -/

/-- The fork of a result with a fresh name is lowered with the same names exactly if no name in it
is taken together with the result. -/
theorem Binder.forkIn_rename_iff {scope : Scope} (h : scope.Resolving) {y : String}
    (hy : ¬ Scope.Reserved y) (hself : scope y = y) {choice : Fork Statement}
    (hfresh : Node.identifier y ∉ Fork.nodes choice) (binder : Binder) (result : String) :
    binder.forkIn scope result choice = binder.forkIn scope y (choice.rename result y) ↔
      ∀ x, Node.identifier x ∈ Fork.nodes choice →
        ¬ scope.Conflates result binder.reserved x := by
  have hrename : binder.forkIn scope y (choice.rename result y) =
      Fork.mapNames (scope.bind (scope y) binder.reserved ∘ renamed result y) choice :=
    Fork.mapNames_mapNames _ _ choice
  rw [hrename, Binder.forkIn, Fork.mapNames_eq_iff]
  refine forall_congr' fun x => forall_congr' fun hx => ?_
  have hne : x ≠ y := by
    rintro rfl
    exact hfresh hx
  exact Scope.bind_eq_bind_fresh_iff h hy hself hne

/-- A name that is taken together with the result shows: acting on it is lowered differently once
the result has a fresh name. -/
theorem Binder.lower_act_ne {scope : Scope} (h : scope.Resolving) {y : String}
    (hy : ¬ Scope.Reserved y) (hself : scope y = y) {binder : Binder} {result x : String}
    (hresult : result ≠ y) (hx : scope.Conflates result binder.reserved x)
    (members : List (String × Json)) :
    Fork.lower (scope.bind (scope result) binder.reserved) members (Fork.act x) ≠
      Fork.lower (scope.bind (scope y) binder.reserved) members
        ((Fork.act x).rename result y) := by
  have hreserved := hx.reserved h
  obtain ⟨hne, hsame, hother⟩ := hx
  have hxy : x ≠ y := by
    rintro rfl
    exact h.ne hy hresult (hsame.symm.trans hself)
  have hbound : scope.bind (scope result) binder.reserved x = binder.reserved := by
    rw [Scope.bind, hsame, renamed, if_pos rfl]
  have hfresh := Scope.bind_fresh_eq h hy hself hxy hne binder.reserved
  rw [Fork.rename, Fork.lower_mapNames]
  refine Fork.lower_act_ne ?_ ?_ ?_ members
  · rw [hbound]
    exact binder.reserved_reserved
  · rw [hfresh]
    exact hreserved
  · rw [hbound, hfresh, hsame]
    exact hother.symm

/-- The result of a statement can have any other name that is new to the script, at any depth,
exactly if no name in its fork is taken together with the result: these are the forks that are
lowered with the same names, for them the whole script is lowered to the same JSON or to the same
problem, and a name that is taken together with the result shows as soon as the fork acts on it. -/
theorem Script.lower_alpha (ctx : Context) (binder : Binder) (result y : String)
    (choice : Fork Statement)
    (hfresh : Node.identifier y ∉ Script.nodes (ctx.fill (binder.statement result choice)))
    (hy : ¬ Scope.Reserved y) :
    (binder.forkIn (ctx.scope id) result choice =
        binder.forkIn (ctx.scope id) y (choice.rename result y) ↔
      ∀ x, Node.identifier x ∈ Fork.nodes choice →
        ¬ (ctx.scope id).Conflates result binder.reserved x) ∧
    ((∀ x, Node.identifier x ∈ Fork.nodes choice →
        ¬ (ctx.scope id).Conflates result binder.reserved x) →
      Script.lower (ctx.fill (binder.statement result choice)) =
        Script.lower (ctx.fill (binder.statement y (choice.rename result y)))) ∧
    (∀ x members, (ctx.scope id).Conflates result binder.reserved x →
      Fork.lower ((ctx.scope id).bind (ctx.scope id result) binder.reserved) members (Fork.act x) ≠
        Fork.lower ((ctx.scope id).bind (ctx.scope id y) binder.reserved) members
          ((Fork.act x).rename result y)) := by
  rw [Script.nodes, List.mem_cons, not_or] at hfresh
  have hresolving := ctx.resolving_scope Scope.resolving_id
  have hself : ctx.scope id y = y :=
    Context.scope_eq_self Scope.resolving_id hy rfl
      fun hresults => hfresh.2 (Context.results_mem_nodes hresults _)
  have hfork : Node.identifier y ∉ Fork.nodes choice := fun hmem =>
    hfresh.2 (ctx.mem_nodesOfList_fill (binder.mem_nodes_statement hmem result))
  have hresult : result ≠ y := by
    rintro rfl
    exact hfresh.2 (ctx.mem_nodesOfList_fill (binder.result_mem_nodes result choice))
  have hiff := binder.forkIn_rename_iff hresolving hy hself hfork result
  refine ⟨hiff, ?same, ?shows⟩
  case same =>
    intro hnames
    exact ctx.lower_fill_congr (binder.lower_congr (hiff.2 hnames))
  case shows =>
    intro x members hx
    exact Binder.lower_act_ne hresolving hy hself hresult hx members

/-- A result that hides one of the other kind can still be renamed, if its branches mention no
other name of that kind. -/
theorem Script.lower_alpha_hidden :
    Script.lower [.input "a" (.plain [⟨none, [.run (.name "f") [.name "a"] (some "a")
      (some (.plain [⟨none, [.perform .act (.name "a")]⟩]))]⟩])] =
    Script.lower [.input "a" (.plain [⟨none, [.run (.name "f") [.name "a"] (some "y")
      (some (.plain [⟨none, [.perform .act (.name "y")]⟩]))]⟩])] := by
  refine (Script.lower_alpha
    (.within [] (.input "a" ⟨none, [], none, []⟩) (.here [] []) [])
    (.run (.name "f") [.name "a"]) "a" "y" (.plain [⟨none, [.perform .act (.name "a")]⟩])
    ?fresh (by decide)).2.1 ?names
  case fresh =>
    simp [Context.fill, Frame.fill, ForkGap.fill, Binder.statement, Script.nodes, Fork.plain,
      Statement.nodesOfList, Statement.nodes, Fork.nodes, Branch.nodesOfList, Expr.nodes,
      Expr.nodesOfList, Expr.nodesOfOption, Expr.nodesOfScheme]
  case names =>
    simp [Fork.plain, Fork.nodes, Branch.nodesOfList, Statement.nodesOfList, Statement.nodes,
      Expr.nodes, Expr.nodesOfOption, Expr.nodesOfScheme, Scope.Conflates]

/-- A result that hides one of the other kind cannot be renamed if its branches mention a further
name of that kind: `b`, which is received input, is lowered as what the program returns. -/
theorem Script.lower_alpha_fails :
    Script.lower [.input "a" (.plain [⟨none, [.input "b" (.plain [⟨none,
      [.run (.name "f") [] (some "a")
        (some (.plain [⟨none, [.perform .act (.name "b")]⟩]))]⟩])]⟩])] ≠
    Script.lower [.input "a" (.plain [⟨none, [.input "b" (.plain [⟨none,
      [.run (.name "f") [] (some "y")
        (some (.plain [⟨none, [.perform .act (.name "b")]⟩]))]⟩])]⟩])] := by
  intro h
  have htext := congrArg (fun lowered => lowered.toOption.map Json.compact) h
  exact absurd htext (by decide +kernel)

end Dialogue
