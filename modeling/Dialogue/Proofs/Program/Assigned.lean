import Dialogue.Proofs.Program.Supported
import Dialogue.Proofs.RoundTrip.Script

/-!
# What a program assigns to

An assignment is lowered to a program only if what it assigns to is lowered to names. For an edit
that is decided by the JSON value of its root, which is a string for a name and for a text and for
nothing else (`Expr.lower_eq_string_iff`). So of all edits in a text that compiles, each changes the
value of a name or of a text (`compile_assigned`).

A statement anywhere in a script is lowered if the script is, in the scope of its place
(`Context.exists_lower_of_fill`). Only the branches of a `run` without a result are passed over, and
no text is read as such a statement.
-/

namespace Dialogue

/-! ## Statements inside a script that is lowered -/

section

variable {scope : Scope}

theorem Statement.exists_lower_of_append {before after : List Statement} {s : Statement}
    (h : ∃ values, Statement.lowerEach scope (before ++ s :: after) = .ok values) :
    ∃ j, s.lower scope = .ok j := by
  induction before with
  | nil =>
    simp only [List.nil_append, Statement.lowerEach, exists_bind_eq_ok_iff] at h
    obtain ⟨j, hj, -⟩ := h
    exact ⟨j, hj⟩
  | cons first before ih =>
    simp only [List.cons_append, Statement.lowerEach, exists_bind_eq_ok_iff] at h
    obtain ⟨-, -, values, hvalues, -⟩ := h
    exact ih ⟨values, hvalues⟩

theorem Branch.exists_lower_of_append {before after : List (Branch Statement)}
    {condition : Option Expr} {body : List Statement}
    (h : ∃ values, Branch.lowerEach scope (before ++ ⟨condition, body⟩ :: after) = .ok values) :
    ∃ values, Statement.lowerEach scope body = .ok values := by
  induction before with
  | nil =>
    simp only [List.nil_append, Branch.lowerEach, exists_bind_eq_ok_iff] at h
    obtain ⟨values, hvalues, -⟩ := h
    exact ⟨values, hvalues⟩
  | cons first before ih =>
    simp only [List.cons_append, Branch.lowerEach, exists_bind_eq_ok_iff] at h
    obtain ⟨-, -, -, -, values, hvalues, -⟩ := h
    exact ih ⟨values, hvalues⟩

theorem ForkGap.exists_lower_of_fill {gap : ForkGap} {members : List (String × Json)}
    {body : List Statement} (h : ∃ j, Fork.lower scope members (gap.fill body) = .ok j) :
    ∃ values, Statement.lowerEach scope body = .ok values := by
  simp only [ForkGap.fill, Fork.lower, exists_bind_eq_ok_iff] at h
  obtain ⟨branches, hbranches, -⟩ := h
  exact Branch.exists_lower_of_append ⟨branches, hbranches⟩

theorem Frame.exists_lower_of_fill {frame : Frame} {body : List Statement}
    (hshape : (frame.fill body).Shaped) (h : ∃ j, (frame.fill body).lower scope = .ok j) :
    ∃ values, Statement.lowerEach (frame.scope scope) body = .ok values := by
  cases frame with
  | fork gap => exact ForkGap.exists_lower_of_fill h
  | input result gap => exact ForkGap.exists_lower_of_fill h
  | await condition =>
    simp only [Frame.fill, Statement.lower, exists_bind_eq_ok_iff] at h
    obtain ⟨values, hvalues, -⟩ := h
    exact ⟨values, hvalues⟩
  | once =>
    simp only [Frame.fill, Statement.lower, exists_bind_eq_ok_iff] at h
    obtain ⟨values, hvalues, -⟩ := h
    exact ⟨values, hvalues⟩
  | run name args result gap =>
    -- without a result, the branches would not be lowered at all
    obtain ⟨x, rfl⟩ := Option.isSome_iff_exists.1 (hshape _ rfl).1
    simp only [Frame.fill, Statement.lower, exists_bind_eq_ok_iff] at h
    obtain ⟨-, -, j, hj, -⟩ := h
    exact ForkGap.exists_lower_of_fill ⟨j, hj⟩
  | define name params =>
    simp only [Frame.fill, Statement.lower, exists_bind_eq_ok_iff] at h
    obtain ⟨values, hvalues, -⟩ := h
    exact ⟨values, hvalues⟩

end

theorem Statement.self_mem_nodes (s : Statement) : Node.statement s ∈ s.nodes := by
  cases s with
  | run name args result choice => cases choice <;> simp [Statement.nodes]
  | _ => simp [Statement.nodes]

/-- What fills a gap of a script that is lowered is lowered itself, in the scope of the gap. -/
theorem Context.exists_lower_of_fill {ctx : Context} {s : Statement} {scope : Scope}
    (hshape : ∀ t, Node.statement t ∈ Statement.nodesOfList (ctx.fill s) → t.Shaped)
    (h : ∃ values, Statement.lowerEach scope (ctx.fill s) = .ok values) :
    ∃ j, s.lower (ctx.scope scope) = .ok j := by
  induction ctx generalizing scope with
  | here before after => exact Statement.exists_lower_of_append h
  | within before frame inner after ih =>
    have hframe : ∀ t, Node.statement t ∈ (frame.fill (inner.fill s)).nodes → t.Shaped := by
      intro t ht
      apply hshape
      simp [fill, Statement.nodesOfList_append, Statement.nodesOfList, ht]
    apply ih
    · exact fun t ht => hframe t (frame.mem_nodes_fill ht)
    · exact Frame.exists_lower_of_fill (hframe _ (Statement.self_mem_nodes _))
        (Statement.exists_lower_of_append h)

/-! ## Targets -/

/-- In any scope, only names and texts are lowered to a string. -/
theorem Expr.eq_name_or_isString {root : Expr} {scope : Scope} {text : String}
    (h : root.lowerIn scope = .ok (.string text)) : (∃ x, root = .name x) ∨ root.IsString := by
  rw [Expr.lowerIn, Expr.lower_eq_string_iff] at h
  cases root with
  | name x => exact Or.inl ⟨x, rfl⟩
  | literal value =>
    rcases h with ⟨-, h⟩ | ⟨s, h, -⟩
    · cases h
    · cases h
      exact Or.inr ⟨s, rfl⟩
  | _ => simp [Expr.mapNames] at h

/-- The target of an assignment that is lowered. -/
theorem Target.cases_of_lower {target : Target} {value : Expr} {scope : Scope} {j : Json}
    (h : (Statement.set target value).lower scope = .ok j) :
    (∃ x, target = .name x) ∨
      (∃ elements, target = .list elements ∧ ∀ e ∈ elements, ∃ x, e = .name x) ∨
      ∃ root keys, target = .edit root keys ∧ ((∃ x, root = .name x) ∨ root.IsString) := by
  simp only [Statement.lower, Target.lowerAssignment, bind_eq_ok_iff] at h
  obtain ⟨result, hresult, -⟩ := h
  cases target with
  | name x => exact Or.inl ⟨x, rfl⟩
  | list elements =>
    simp only [Target.mapNames, Target.lower, bind_eq_ok_iff] at hresult
    obtain ⟨targets, htargets, -⟩ := hresult
    have hnames := (Expr.exists_lowerTargets_iff scope elements).1 ⟨targets, htargets⟩
    exact Or.inr (Or.inl ⟨elements, rfl, hnames⟩)
  | edit root keys =>
    obtain ⟨text, -, -, hroot, -⟩ := Target.lower_edit_eq_ok_iff.1 hresult
    exact Or.inr (Or.inr ⟨root, keys, rfl, Expr.eq_name_or_isString hroot⟩)

/-- An edit of anything but a name or a text has a problem: its target, or its root itself. -/
theorem Statement.lower_edit_eq_error {root : Expr} (hname : ∀ x, root ≠ .name x)
    (htext : ¬ root.IsString) (scope : Scope) (keys : List Expr) (value : Expr) :
    ∃ problem, (Statement.set (.edit root keys) value).lower scope = .error problem ∧
      (problem.code = .unsupportedTarget ∨ root.lowerIn scope = .error problem) := by
  rw [Statement.lower, Target.lowerAssignment, Target.mapNames, Target.lower]
  cases hroot : (root.mapNames scope).lower with
  | error problem => exact ⟨problem, rfl, Or.inr hroot⟩
  | ok j =>
    refine ⟨.editedValue j, ?_, Or.inl rfl⟩
    cases j with
    | string text =>
      rcases Expr.eq_name_or_isString hroot with ⟨x, hx⟩ | hstring
      · exact absurd hx (hname x)
      · exact absurd hstring htext
    | _ => rfl

/-- What is assigned to in a text that compiles, at every depth: names, or a place in the value of a
name or of a text. An edit of anything else is rejected wherever it stands. -/
theorem compile_assigned (source : String) (script : Script)
    (hread : Script.read source = .ok script) (target : Target) (value : Expr)
    (hset : Node.statement (.set target value) ∈ script.nodes) :
    (∀ program, compile source = .ok program →
      (∃ elements, target = .list elements ∧ ∀ e ∈ elements, ∃ x, e = .name x) ∨
        ∃ root keys, target = .edit root keys ∧ ((∃ x, root = .name x) ∨ root.IsString)) ∧
    ∀ root keys, target = .edit root keys → (∀ x, root ≠ .name x) → ¬ root.IsString → ∀ scope,
      ∃ problem, (Statement.set target value).lower scope = .error problem ∧
        (problem.code = .unsupportedTarget ∨ root.lowerIn scope = .error problem) := by
  refine ⟨?assigned, ?rejected⟩
  case assigned =>
    intro program h
    simp only [compile, hread, bind_eq_ok_iff, mapError_eq_ok_iff, Except.ok.injEq] at h
    obtain ⟨_, rfl, lowered, hlowered, -⟩ := h
    simp only [Script.lower, bind_eq_ok_iff] at hlowered
    obtain ⟨statements, hstatements, -⟩ := hlowered
    have hshaped := Statement.shapedOfList (Script.plain_of_read hread)
    obtain ⟨ctx, rfl⟩ := Context.exists_fill hset
    obtain ⟨j, hj⟩ :=
      Context.exists_lower_of_fill (fun t ht => hshaped _ ht) ⟨statements, hstatements⟩
    rcases Target.cases_of_lower hj with ⟨x, rfl⟩ | hassigned
    · have hnever : (Node.statement (.set (.name x) value)).Shaped :=
        hshaped _ (ctx.mem_nodesOfList_fill (Statement.self_mem_nodes _))
      exact hnever.elim
    · exact hassigned
  case rejected =>
    rintro root keys rfl hname htext scope
    exact Statement.lower_edit_eq_error hname htext scope keys value

/-- An edit of a name that is compiled, and an edit of a list that is rejected. -/
theorem compile_assigned_list :
    (∃ root keys, Target.edit (.name "a") [.name "k"] = .edit root keys ∧
      ((∃ x, root = .name x) ∨ root.IsString)) ∧
    ∃ problem, (Statement.set (.edit (.array [.name "a"]) [.name "k"]) (.name "b")).lower id =
      .error problem ∧ problem.code = .unsupportedTarget := by
  refine ⟨?name, ?list⟩
  case name =>
    have hread : Script.read "once \x7b a[k] = b \x7d" =
        .ok [.once [.set (.edit (.name "a") [.name "k"]) (.name "b")]] := rfl
    have hcompile : ∃ program, compile "once \x7b a[k] = b \x7d" = .ok program := by
      rw [compile, hread]
      exact ⟨_, rfl⟩
    obtain ⟨program, hprogram⟩ := hcompile
    rcases (compile_assigned _ _ hread (.edit (.name "a") [.name "k"]) (.name "b")
      (by simp [Script.nodes, Statement.nodesOfList, Statement.nodes])).1 program hprogram with
      ⟨elements, heq, -⟩ | hedit
    · cases heq
    · exact hedit
  case list =>
    have hread : Script.read "[a][k] = b" =
        .ok [.set (.edit (.array [.name "a"]) [.name "k"]) (.name "b")] := rfl
    have htext : ¬ (Expr.array [.name "a"]).IsString := by simp [Expr.IsString]
    obtain ⟨problem, hlower, hcode | hroot⟩ :=
      (compile_assigned _ _ hread (.edit (.array [.name "a"]) [.name "k"]) (.name "b")
        (by simp [Script.nodes, Statement.nodesOfList, Statement.nodes])).2 _ _ rfl (by simp) htext
        id
    · exact ⟨problem, hlower, hcode⟩
    · cases hroot

/-- The edit of a text, which is written `(("a")[k]) = (b)`. -/
def textEdit : Script := [.set (.edit (.literal (.string "a")) [.name "k"]) (.name "b")]

/-- The edit of a text is compiled, though no name is assigned to. -/
theorem compile_assigned_fails :
    ¬ ∀ (source : String) (program : Json), compile source = .ok program →
      ∃ script, Script.read source = .ok script ∧
        ∀ target value, Node.statement (.set target value) ∈ script.nodes →
          (∃ elements, target = .list elements ∧ ∀ e ∈ elements, ∃ x, e = .name x) ∨
            ∃ root keys, target = .edit root keys ∧ ∃ x, root = .name x := by
  intro h
  have hread : Script.read "((\"a\")[k]) = (b)\n" = .ok textEdit := by
    have hname : ∀ x ∈ ["k", "b"], Expr.Plain (.name x) := by
      simp only [Expr.Plain]
      decide
    have hplain : textEdit.Plain :=
      ⟨⟨⟨List.cons_ne_nil _ _, rfl, trivial, by simp [hname "k"]⟩, hname "b" (by decide)⟩, trivial⟩
    have htext : "((\"a\")[k]) = (b)\n".toList = Statement.writeLines textEdit := by decide
    rw [Script.read_eq_ok_iff, htext]
    exact Reader.script_writeLines hplain
  have hcompile : ∃ program, compile "((\"a\")[k]) = (b)\n" = .ok program := by
    rw [compile, hread]
    exact ⟨_, rfl⟩
  obtain ⟨program, hprogram⟩ := hcompile
  obtain ⟨script, hscript, htargets⟩ := h _ program hprogram
  rw [hread] at hscript
  cases hscript
  rcases htargets _ _ (List.mem_cons_of_mem _ List.mem_cons_self) with
    ⟨elements, heq, -⟩ | ⟨root, keys, heq, x, rfl⟩
  · cases heq
  · cases heq

end Dialogue
