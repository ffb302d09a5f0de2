import Dialogue.Diagnostic
import Dialogue.Proofs.Progress.Statement
import Dialogue.Script.Node

/-!
# The shape of what is read

`Node.Shaped` lists, kind by kind, what holds of the parts of a script that was read from a text.
A script that can be written consists of such parts (`Script.shaped`), and a script that was read
can be written (`Script.plain_of_read`), so all parts of a script that was read have that shape.
-/

namespace Dialogue

open Reader (isSymbol)

/-! ## Shapes -/

/-- The shape of the target of an assignment: some targets, and not a single indexing, or an edit
by some keys of a root that is no indexing itself. -/
def Target.Shaped : Target → Prop
  | .name _ => False
  | .list elements => elements ≠ [] ∧ ∀ e, elements = [e] → e.isMember = false
  | .edit root keys => keys ≠ [] ∧ root.isMember = false

/-- The shape of a statement, apart from the parts inside it. -/
def Statement.Shaped : Statement → Prop
  | .input _ choice => choice.scheme = none
  | .set target _ => target.Shaped
  | .run _ _ result choice => ∀ fork ∈ choice, result.isSome ∧ fork.scheme = none
  | .use name imports => name.IsString ∧ imports ≠ [] ∧ ∀ value ∈ imports, value.IsImport
  | _ => True

/-- The shape of an expression, apart from the parts inside it. -/
def Expr.Shaped : Expr → Prop
  | .name x => x ≠ "true" ∧ x ≠ "false"
  | .spread _ => False
  | _ => True

/-- The shape of a part of a script. -/
def Node.Shaped : Node → Prop
  | .statement s => s.Shaped
  | .expression e => e.Shaped
  | .identifier x => isSymbol x = true
  | .literal (.number v) => v ≠ .nan
  | _ => True

/-! ## What can be written has that shape -/

theorem Literal.shaped {value : Literal} (h : value.Plain) : (Node.literal value).Shaped := by
  cases value with
  | number v => exact h.ne_nan
  | _ => trivial

mutual

theorem Expr.shaped : ∀ {e : Expr}, e.Plain → ∀ node ∈ e.nodes, node.Shaped
  | .binary _ _ _, h => by
    simp only [Expr.nodes, List.forall_mem_cons, List.forall_mem_append]
    exact ⟨trivial, Expr.shaped h.1, Expr.shaped h.2⟩
  | .not operand, h => by
    have hoperand : operand.Plain := h
    simp only [Expr.nodes, List.forall_mem_cons]
    exact ⟨trivial, Expr.shaped hoperand⟩
  | .call _ _, h => by
    simp only [Expr.nodes, List.forall_mem_cons, List.forall_mem_append]
    exact ⟨trivial, Expr.shaped h.1, Expr.shapedOfList h.2⟩
  | .member _ _, h => by
    simp only [Expr.nodes, List.forall_mem_cons, List.forall_mem_append]
    exact ⟨trivial, Expr.shaped h.1, Expr.shaped h.2⟩
  | .name _, h => by
    simp only [Expr.nodes, List.forall_mem_cons, List.not_mem_nil, false_imp_iff]
    exact ⟨h.2, h.1, fun _ => trivial⟩
  | .literal _, h => by
    simp only [Expr.nodes, List.forall_mem_cons, List.not_mem_nil, false_imp_iff]
    exact ⟨trivial, Literal.shaped h, fun _ => trivial⟩
  | .array elements, h => by
    have helements : Expr.PlainEach elements := h
    simp only [Expr.nodes, List.forall_mem_cons]
    exact ⟨trivial, Expr.shapedOfList helements⟩
  | .object fields, h => by
    have hfields : Expr.PlainFields fields := h
    simp only [Expr.nodes, List.forall_mem_cons]
    exact ⟨trivial, Expr.shapedOfFields hfields⟩
  | .spread _, h => h.elim

theorem Expr.shapedOfList : ∀ {es : List Expr}, Expr.PlainEach es →
    ∀ node ∈ Expr.nodesOfList es, node.Shaped
  | [], _ => by simp [Expr.nodesOfList]
  | _ :: _, h => by
    simp only [Expr.nodesOfList, List.forall_mem_append]
    exact ⟨Expr.shaped h.1, Expr.shapedOfList h.2⟩

theorem Expr.shapedOfFields : ∀ {fields : List (String × Expr)}, Expr.PlainFields fields →
    ∀ node ∈ Expr.nodesOfFields fields, node.Shaped
  | [], _ => by simp [Expr.nodesOfFields]
  | (_, _) :: _, h => by
    simp only [Expr.nodesOfFields, List.forall_mem_append]
    exact ⟨Expr.shaped h.1, Expr.shapedOfFields h.2⟩

end

theorem Expr.shapedOfOption {condition : Option Expr} (h : ∀ e ∈ condition, e.Plain) :
    ∀ node ∈ Expr.nodesOfOption condition, node.Shaped := by
  cases condition with
  | none => simp [Expr.nodesOfOption]
  | some e => exact Expr.shaped (h e rfl)

theorem Expr.shapedOfScheme {scheme : Option (List (String × Expr))}
    (h : ∀ fields ∈ scheme, Expr.PlainFields fields) :
    ∀ node ∈ Expr.nodesOfScheme scheme, node.Shaped := by
  cases scheme with
  | none => simp [Expr.nodesOfScheme]
  | some fields => exact Expr.shapedOfFields (h fields rfl)

theorem Target.shaped_of_plain {target : Target} (h : target.Plain) : target.Shaped := by
  cases target with
  | name x => exact h
  | list elements => exact ⟨h.1, h.2.1⟩
  | edit root keys => exact ⟨h.1, h.2.1⟩

theorem Target.shaped {target : Target} (h : target.Plain) :
    ∀ node ∈ target.nodes, node.Shaped := by
  cases target with
  | name x => exact h.elim
  | list elements => exact Expr.shapedOfList (Expr.plainEach_iff.2 h.2.2)
  | edit root keys =>
    simp only [Target.nodes, List.forall_mem_append]
    exact ⟨Expr.shaped h.2.2.1, Expr.shapedOfList (Expr.plainEach_iff.2 h.2.2.2)⟩

theorem Statement.shaped_of_plain : ∀ {s : Statement}, s.Plain → s.Shaped
  | .fork _, _ => trivial
  | .input _ _, h => h.2.1
  | .await _ _, _ => trivial
  | .once _, _ => trivial
  | .perform _ _, _ => trivial
  | .set _ _, h => Target.shaped_of_plain h.1
  | .run _ _ _ none, _ => by simp [Statement.Shaped]
  | .run _ _ _ (some _), h => by
    obtain ⟨-, -, ⟨x, rfl, -⟩, hscheme, -⟩ := h
    simpa [Statement.Shaped] using hscheme
  | .use _ _, h => h
  | .define _ _ _, _ => trivial

/-- Identifiers that are listed as nodes. -/
theorem shaped_map_identifier {xs : List String} (h : ∀ x ∈ xs, isSymbol x = true) :
    ∀ node ∈ xs.map Node.identifier, node.Shaped := by
  intro node hnode
  obtain ⟨x, hx, rfl⟩ := List.mem_map.1 hnode
  exact h x hx

mutual

theorem Statement.shaped : ∀ {s : Statement}, s.Plain → ∀ node ∈ s.nodes, node.Shaped
  | .fork choice, h => by
    simp only [Statement.nodes, List.forall_mem_cons]
    exact ⟨Statement.shaped_of_plain h, Fork.shaped h.1 h.2⟩
  | .input _ choice, h => by
    simp only [Statement.nodes, List.forall_mem_cons]
    refine ⟨Statement.shaped_of_plain h, h.1, Fork.shaped ?_ h.2.2⟩
    rw [h.2.1]
    simp
  | .await _ _, h => by
    simp only [Statement.nodes, List.forall_mem_cons, List.forall_mem_append]
    exact ⟨trivial, Expr.shaped h.1, trivial, Statement.shapedOfList h.2⟩
  | .once body, h => by
    have hbody : Statement.PlainEach body := h
    simp only [Statement.nodes, List.forall_mem_cons]
    exact ⟨trivial, trivial, Statement.shapedOfList hbody⟩
  | .perform _ value, h => by
    have hvalue : value.Plain := h
    simp only [Statement.nodes, List.forall_mem_cons]
    exact ⟨trivial, Expr.shaped hvalue⟩
  | .set _ _, h => by
    simp only [Statement.nodes, List.forall_mem_cons, List.forall_mem_append]
    exact ⟨Statement.shaped_of_plain h, Target.shaped h.1, Expr.shaped h.2⟩
  | .run _ _ result none, h => by
    simp only [Statement.nodes, List.forall_mem_cons, List.forall_mem_append]
    refine ⟨Statement.shaped_of_plain h, ⟨Expr.shaped h.1, Expr.shapedOfList h.2.1⟩, ?_⟩
    exact shaped_map_identifier fun x hx => h.2.2 x (Option.mem_toList.1 hx)
  | .run _ _ result (some choice), h => by
    simp only [Statement.nodes, List.forall_mem_cons, List.forall_mem_append]
    have hshaped := Statement.shaped_of_plain h
    obtain ⟨hname, hargs, ⟨x, rfl, hx⟩, hscheme, hchoice⟩ := h
    refine ⟨hshaped, ⟨⟨Expr.shaped hname, Expr.shapedOfList hargs⟩, ?_⟩, Fork.shaped ?_ hchoice⟩
    · exact shaped_map_identifier (by simpa using hx)
    · rw [hscheme]
      simp
  | .use _ imports, h => by
    simp only [Statement.nodes, List.forall_mem_cons, List.forall_mem_append]
    obtain ⟨⟨s, rfl⟩, hne, himports⟩ := h
    refine ⟨⟨⟨s, rfl⟩, hne, himports⟩, Expr.shaped (e := .literal (.string s)) trivial, ?_⟩
    intro node hnode
    obtain ⟨value, hvalue, rfl⟩ := List.mem_map.1 hnode
    obtain ⟨x, rfl, -⟩ := himports value hvalue
    trivial
  | .define _ params _, h => by
    simp only [Statement.nodes, List.forall_mem_cons, List.forall_mem_append]
    exact ⟨trivial, h.1, shaped_map_identifier h.2.1, trivial, Statement.shapedOfList h.2.2⟩

theorem Fork.shaped : ∀ {choice : Fork Statement},
    (∀ fields ∈ choice.scheme, Expr.PlainFields fields) → Fork.PlainBranches choice →
    ∀ node ∈ Fork.nodes choice, node.Shaped
  | ⟨scheme, branches⟩, hscheme, h => by
    have hbranches : Branch.PlainEach branches := h
    simp only [Fork.nodes, List.forall_mem_cons, List.forall_mem_append]
    exact ⟨trivial, Expr.shapedOfScheme hscheme, Branch.shapedOfList hbranches⟩

theorem Branch.shapedOfList : ∀ {branches : List (Branch Statement)},
    Branch.PlainEach branches → ∀ node ∈ Branch.nodesOfList branches, node.Shaped
  | [], _ => by simp [Branch.nodesOfList]
  | ⟨_, _⟩ :: _, h => by
    simp only [Branch.nodesOfList, List.forall_mem_cons, List.forall_mem_append,
      List.cons_append]
    exact ⟨trivial, ⟨Expr.shapedOfOption h.1, trivial, Statement.shapedOfList h.2.1⟩,
      Branch.shapedOfList h.2.2⟩

theorem Statement.shapedOfList : ∀ {statements : List Statement},
    Statement.PlainEach statements → ∀ node ∈ Statement.nodesOfList statements, node.Shaped
  | [], _ => by simp [Statement.nodesOfList]
  | _ :: _, h => by
    simp only [Statement.nodesOfList, List.forall_mem_append]
    exact ⟨Statement.shaped h.1, Statement.shapedOfList h.2⟩

end

/-! ## Scripts -/

namespace Reader

/-- A script that is read can be written, and reading fails only at a place in the text, for a
cause in the text. -/
theorem takes_script (text : List Char) :
    match script text with
    | .ok P => P.Plain
    | .error fault => Left 0 text fault.rest ∧ fault.cause ≠ .exhausted := by
  have hread := takes_statements (takesBelow_statementAt (text.length + 1))
    (Nat.lt_succ_self text.length) (Nat.lt_succ_self text.length)
  rw [script]
  cases hfound : statements (statementAt (text.length + 1)) (text.length + 1) text with
  | error fault =>
    rw [hfound] at hread
    exact hread
  | ok found =>
    obtain ⟨P, rest⟩ := found
    rw [hfound] at hread
    obtain ⟨hplain, hrest⟩ := hread
    have hgap := hrest.trans (Left.skip rest)
    simp only [ok_bind]
    split
    · rename_i hscript
      split at hscript
      · cases hscript
        exact hplain
      · cases hscript
    · rename_i fault hscript
      split at hscript
      · cases hscript
      · rename_i c more hskip
        cases hscript
        rw [← hskip]
        exact ⟨hgap, by simp⟩

end Reader

theorem mapError_eq_ok_iff {ε ε' α : Type} {f : ε → ε'} {step : Except ε α} {value : α} :
    step.mapError f = .ok value ↔ step = .ok value := by
  cases step with
  | error e =>
    constructor
    · intro h
      cases h
    · intro h
      cases h
  | ok found =>
    constructor
    · intro h
      cases h
      rfl
    · intro h
      cases h
      rfl

theorem Script.read_eq_ok_iff {source : String} {P : Script} :
    Script.read source = .ok P ↔ Reader.script source.toList = .ok P := mapError_eq_ok_iff

/-- Whether a computation fails in a given way is decided by running it. -/
instance decidableEqError {ε α : Type} [DecidableEq ε] (e : ε) :
    (result : Except ε α) → Decidable (result = .error e)
  | .ok _ => isFalse nofun
  | .error found => decidable_of_iff (found = e) ⟨congrArg _, Except.error.inj⟩

/-- A diagnostic of a source is about a place in it, and has the wording of what was found there. -/
theorem Script.exists_fault_of_read {source : String} {d : Diagnostic}
    (h : Script.read source = .error d) :
    ∃ fault before, Reader.script source.toList = .error fault ∧
      source.toList = before ++ fault.rest ∧
      d = .between fault.cause.code fault.cause.message before fault.rest := by
  have hplace := Reader.takes_script source.toList
  rw [Script.read] at h
  cases hread : Reader.script source.toList with
  | ok P =>
    rw [hread] at h
    cases h
  | error fault =>
    rw [hread] at h hplace
    obtain ⟨before, hbefore⟩ := hplace.1.suffix
    refine ⟨fault, before, rfl, hbefore.symm, ?_⟩
    rw [← Diagnostic.ofFault_append, hbefore]
    exact (Except.error.inj h).symm

theorem Script.plain_of_read {source : String} {P : Script} (h : Script.read source = .ok P) :
    P.Plain := by
  have hscript := Reader.takes_script source.toList
  rw [Script.read_eq_ok_iff.1 h] at hscript
  exact hscript

/-- Whatever text a script is read from, each part of it has its shape: no spread and no name as
a target, words as identifiers and none that stands for a truth value as an expression, targets
and modules as they can be written, results for all branches of other programs, no data in their
forks, and only numbers. -/
theorem Script.shaped_of_read (source : String) (P : Script) (h : Script.read source = .ok P) :
    ∀ node ∈ P.nodes, node.Shaped := by
  have hplain : Statement.PlainEach P := Script.plain_of_read h
  rw [Script.nodes, List.forall_mem_cons]
  exact ⟨trivial, Statement.shapedOfList hplain⟩

/-- A program with a branch that edits a value. -/
def editingRun : Statement :=
  .run (.name "f") [] (some "r") (some (.plain [⟨none,
    [.set (.edit (.name "a") [.name "k"]) (.name "r")]⟩]))

theorem Script.shaped_of_read_editingRun :
    Script.read "run f -> r \x7b _ \x7b a[k] = r \x7d \x7d" = .ok [editingRun] ∧
      (Node.statement editingRun).Shaped := by
  have hread : Script.read "run f -> r \x7b _ \x7b a[k] = r \x7d \x7d" = .ok [editingRun] := rfl
  refine ⟨hread, Script.shaped_of_read _ _ hread (.statement editingRun) ?_⟩
  simp [Script.nodes, Statement.nodesOfList, editingRun, Statement.nodes]

end Dialogue
