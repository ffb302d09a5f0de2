import Dialogue.Proofs.Program.Fields
import Dialogue.Proofs.Program.Grammar
import Dialogue.Proofs.Progress.Shape
import Dialogue.Proofs.Scope.Names

/-!
# Compiled programs

Whatever text is compiled, the result is in the grammar of programs, and its outline is that of the
script (`compile_isProgram`). Two facts of reading carry this: a script has no spread, so no array
comes out empty, and its identifiers are words, which the reserved names of the runtime are too, so
no string comes out as a tag.
-/

namespace Dialogue

open Reader (isSymbol)

/-! ## Outlines of scripts -/

mutual

/-- The outline of a statement. A result that nothing is done with is assigned in a branch of its
own. -/
def Statement.outline : Statement → Outline
  | .fork choice => .fork (Fork.arms choice)
  | .input _ choice => .input (Fork.arms choice)
  | .await _ body => .await (Statement.outlineEach body)
  | .once body => .once (Statement.outlineEach body)
  | .perform verb _ => .perform verb
  | .set _ _ => .set
  | .run _ _ none _ => .run none
  | .run _ _ (some _) none => .run (some [⟨false, [.set]⟩])
  | .run _ _ (some _) (some choice) => .run (some (Fork.arms choice))
  | .use _ _ => .use
  | .define _ _ body => .define (Statement.outlineEach body)

/-- The branches of a fork. -/
def Fork.arms : Fork Statement → List (Arm Outline)
  | ⟨_, branches⟩ => Branch.armEach branches

/-- Each of a list of branches. -/
def Branch.armEach : List (Branch Statement) → List (Arm Outline)
  | [] => []
  | ⟨condition, body⟩ :: branches =>
    ⟨condition.isSome, Statement.outlineEach body⟩ :: Branch.armEach branches

/-- The outline of each of a list of statements. -/
def Statement.outlineEach : List Statement → List Outline
  | [] => []
  | statement :: statements => statement.outline :: Statement.outlineEach statements

end

/-! ## Words in a scope -/

namespace Scope

theorem isSymbol_of_reserved {x : String} (h : Reserved x) : isSymbol x = true := by
  rcases h with rfl | rfl
  · decide
  · decide

theorem plain_of_reserved {x : String} (h : Reserved x) : (Expr.name x).Plain := by
  refine ⟨isSymbol_of_reserved h, ?_, ?_⟩
  · rcases h with rfl | rfl <;> decide
  · rcases h with rfl | rfl <;> decide

end Scope

mutual

/-- What can be written stays so where results have become reserved names. -/
theorem Expr.plain_mapNames {scope : Scope} (hscope : scope.Resolving) :
    ∀ e : Expr, e.Plain → (e.mapNames scope).Plain
  | .binary _ left right, h =>
    ⟨Expr.plain_mapNames hscope left h.1, Expr.plain_mapNames hscope right h.2⟩
  | .not operand, h => Expr.plain_mapNames hscope operand h
  | .call callee args, h =>
    ⟨Expr.plain_mapNames hscope callee h.1, Expr.plainEach_mapNames hscope args h.2⟩
  | .member target property, h =>
    ⟨Expr.plain_mapNames hscope target h.1, Expr.plain_mapNames hscope property h.2⟩
  | .name x, h => by
    rw [Expr.mapNames]
    rcases hscope x with hself | hreserved
    · rw [hself]
      exact h
    · exact Scope.plain_of_reserved hreserved
  | .literal _, h => h
  | .array elements, h => Expr.plainEach_mapNames hscope elements h
  | .object fields, h => Expr.plainFields_mapNames hscope fields h
  | .spread _, h => h.elim

theorem Expr.plainEach_mapNames {scope : Scope} (hscope : scope.Resolving) :
    ∀ es : List Expr, Expr.PlainEach es → Expr.PlainEach (Expr.mapNamesOfList scope es)
  | [], _ => trivial
  | e :: es, h => ⟨Expr.plain_mapNames hscope e h.1, Expr.plainEach_mapNames hscope es h.2⟩

theorem Expr.plainFields_mapNames {scope : Scope} (hscope : scope.Resolving) :
    ∀ fields : List (String × Expr), Expr.PlainFields fields →
      Expr.PlainFields (Expr.mapNamesOfFields scope fields)
  | [], _ => trivial
  | (_, e) :: fields, h =>
    ⟨Expr.plain_mapNames hscope e h.1, Expr.plainFields_mapNames hscope fields h.2⟩

end

/-! ## Expressions -/

namespace Json

theorem head_quoted (text : String) : (quoted text).toList.head? ≠ some '@' := by
  simp [quoted, String.toList_append]

theorem head_of_isSymbol {x : String} (h : isSymbol x = true) : x.toList.head? ≠ some '@' := by
  obtain ⟨c, cs, hx, hc, -⟩ := Reader.exists_of_isSymbol h
  rw [hx]
  rintro heq
  cases heq
  cases hc

theorem isExpr_operation {head : String} (hhead : head.toList.head? ≠ some '@')
    {operands : List Json} (h : ∀ e ∈ operands, IsExpr e) :
    IsExpr (.array (.string head :: operands)) := by
  apply IsExpr.array (List.cons_ne_nil _ _)
  rw [List.forall_mem_cons]
  exact ⟨.string hhead, h⟩

theorem isExpr_list {elements : List Json} (h : ∀ e ∈ elements, IsExpr e) :
    IsExpr (.list elements) := isExpr_operation (by decide) h

/-- Members of an object that is an expression. -/
structure AreMembers (members : List (String × Json)) : Prop where
  nodup : (members.map Prod.fst).Nodup
  isExpr_of_mem : ∀ m ∈ members, (∃ key, m.1 = quoted key) ∧ IsExpr m.2

theorem AreMembers.isExpr {members : List (String × Json)} (h : AreMembers members) :
    IsExpr (.object members) :=
  .object (fun m hm => (h.isExpr_of_mem m hm).1) h.nodup fun m hm => (h.isExpr_of_mem m hm).2

theorem areMembers_nil : AreMembers [] := ⟨List.nodup_nil, nofun⟩

theorem mem_of_mem_insert {key : String} {value : Json} {members : List (String × Json)}
    {m : String × Json} (h : m ∈ Json.insert key value members) :
    m = (key, value) ∨ m ∈ members := by
  induction members with
  | nil => exact Or.inl (List.mem_singleton.1 h)
  | cons first members ih =>
    rw [Json.insert] at h
    split at h
    · exact (List.mem_cons.1 h).imp_right (List.mem_cons_of_mem first)
    · rcases List.mem_cons.1 h with rfl | h
      · exact Or.inr List.mem_cons_self
      · exact (ih h).imp_right (List.mem_cons_of_mem first)

theorem AreMembers.insert {members : List (String × Json)} (h : AreMembers members) (key : String)
    {value : Json} (hvalue : IsExpr value) :
    AreMembers (Json.insert (quoted key) value members) := by
  refine ⟨nodup_insert h.nodup _ _, ?_⟩
  intro m hm
  rcases mem_of_mem_insert hm with rfl | hm
  · exact ⟨⟨key, rfl⟩, hvalue⟩
  · exact h.isExpr_of_mem m hm

end Json

open Json (IsExpr AreMembers isExpr_operation isExpr_list)

theorem Double.isExpr_lower (v : Double) : IsExpr v.lower := by
  cases v with
  | nan => exact .null
  | infinite negative => exact .null
  | finite x =>
    rw [Double.lower]
    split
    · split
      · exact .integer _
      · exact .real x
    · exact .real x

theorem Literal.isExpr_lower (value : Literal) : IsExpr value.lower := by
  cases value with
  | string s => exact .string (Json.head_quoted s)
  | number v => exact v.isExpr_lower
  | boolean b => exact .bool b

namespace Preference

theorem Fields.isExpr_lower (fields : Fields) : IsExpr fields.lower := by
  rw [Fields.lower]
  apply AreMembers.isExpr
  suffices h : ∀ members, AreMembers members → AreMembers (fields.foldl
      (fun members field => Json.insert (quoted field.1) field.2.lower members) members) from
    h [] Json.areMembers_nil
  induction fields with
  | nil => exact fun members h => h
  | cons field fields ih => exact fun members h => ih _ (h.insert field.1 field.2.isExpr_lower)

theorem Expansion.isExpr_pairs (expansion : Expansion) : ∀ e ∈ expansion.pairs, IsExpr e := by
  have hpair : ∀ base nudged : Fields, IsExpr (.list [base.lower, nudged.lower]) := by
    intro base nudged
    apply isExpr_list
    simp [Fields.isExpr_lower]
  cases expansion with
  | pair base nudged => simp [Expansion.pairs, hpair]
  | spread base up down => simp [Expansion.pairs, hpair]

theorem Expansion.isExpr_lower (expansion : Expansion) : IsExpr expansion.lower := by
  have hpairs := expansion.isExpr_pairs
  cases expansion with
  | pair base nudged => exact hpairs _ List.mem_cons_self
  | spread base up down => exact .array (List.cons_ne_nil _ _) hpairs

end Preference

theorem isExpr_lowerName {x : String} (h : isSymbol x = true) : IsExpr (lowerName x) := by
  rw [lowerName]
  split
  · exact .null
  · exact .string (Json.head_of_isSymbol h)

theorem Operator.head_symbol (op : Operator) : op.symbol.toList.head? ≠ some '@' := by
  cases op <;> decide

mutual

/-- An expression that can be written is lowered to an expression of the runtime. -/
theorem Expr.isExpr_lower : ∀ (e : Expr) {j : Json}, e.Plain → e.lower = .ok j → IsExpr j
  | .binary op left right, j, hplain, h => by
    simp only [Expr.lower, bind_eq_ok_iff, Except.ok.injEq] at h
    obtain ⟨l, hl, r, hr, rfl⟩ := h
    have hleft := Expr.isExpr_lower left hplain.1 hl
    have hright := Expr.isExpr_lower right hplain.2 hr
    apply isExpr_operation op.head_symbol
    simp [hleft, hright]
  | .not operand, j, hplain, h => by
    simp only [Expr.lower, bind_eq_ok_iff, Except.ok.injEq] at h
    obtain ⟨value, hvalue, rfl⟩ := h
    have hoperand := Expr.isExpr_lower operand hplain hvalue
    apply isExpr_operation (by decide)
    simp [hoperand]
  | .call callee args, j, hplain, h => by
    rw [Expr.lower] at h
    split at h
    · exact Expr.isExpr_lowerExists args hplain.2 h
    split at h
    · simp only [bind_eq_ok_iff, Except.ok.injEq] at h
      obtain ⟨expansion, -, rfl⟩ := h
      exact expansion.isExpr_lower
    · simp only [bind_eq_ok_iff, Except.ok.injEq] at h
      obtain ⟨name, hname, values, hvalues, rfl⟩ := h
      have hcallee := Expr.isExpr_lower callee hplain.1 hname
      have hargs := Expr.isExpr_lowerEach args hplain.2 hvalues
      exact .array (List.cons_ne_nil _ _) (List.forall_mem_cons.2 ⟨hcallee, hargs⟩)
  | .member target property, j, hplain, h => by
    simp only [Expr.lower, bind_eq_ok_iff, Except.ok.injEq] at h
    obtain ⟨key, hkey, root, hroot, rfl⟩ := h
    have hproperty := Expr.isExpr_lower property hplain.2 hkey
    have htarget := Expr.isExpr_lower target hplain.1 hroot
    apply isExpr_operation (by decide)
    simp [hproperty, htarget]
  | .name x, j, hplain, h => by
    cases h
    exact isExpr_lowerName hplain.1
  | .literal value, j, _, h => by
    cases h
    exact value.isExpr_lower
  | .array elements, j, hplain, h => by
    simp only [Expr.lower, bind_eq_ok_iff, Except.ok.injEq] at h
    obtain ⟨values, hvalues, rfl⟩ := h
    exact isExpr_list (Expr.isExpr_lowerElements elements hplain hvalues)
  | .object fields, j, hplain, h => by
    simp only [Expr.lower, bind_eq_ok_iff, Except.ok.injEq] at h
    obtain ⟨members, hmembers, rfl⟩ := h
    exact (Expr.areMembers_lowerFields fields hplain Json.areMembers_nil hmembers).isExpr
  | .spread _, _, hplain, _ => hplain.elim

theorem Expr.isExpr_lowerExists : ∀ (es : List Expr) {j : Json}, Expr.PlainEach es →
    Expr.lowerExists es = .ok j → IsExpr j
  | [], _, _, h => by cases h
  | e :: _, j, hplain, h => by
    simp only [Expr.lowerExists, bind_eq_ok_iff, Except.ok.injEq] at h
    obtain ⟨value, hvalue, rfl⟩ := h
    have he := Expr.isExpr_lower e hplain.1 hvalue
    apply isExpr_operation (by decide)
    simp [he]

theorem Expr.isExpr_lowerEach : ∀ (es : List Expr) {values : List Json}, Expr.PlainEach es →
    Expr.lowerEach es = .ok values → ∀ value ∈ values, IsExpr value
  | [], values, _, h => by
    cases h
    exact nofun
  | e :: es, values, hplain, h => by
    simp only [Expr.lowerEach, bind_eq_ok_iff, Except.ok.injEq] at h
    obtain ⟨first, hfirst, others, hothers, rfl⟩ := h
    exact List.forall_mem_cons.2
      ⟨Expr.isExpr_lower e hplain.1 hfirst, Expr.isExpr_lowerEach es hplain.2 hothers⟩

theorem Expr.isExpr_lowerElements : ∀ (es : List Expr) {values : List Json}, Expr.PlainEach es →
    Expr.lowerElements es = .ok values → ∀ value ∈ values, IsExpr value
  | [], values, _, h => by
    cases h
    exact nofun
  | e :: es, values, hplain, h => by
    rw [Expr.lowerElements] at h
    · simp only [bind_eq_ok_iff] at h
      obtain ⟨expansion?, -, h⟩ := h
      cases expansion? with
      | some expansion =>
        simp only [bind_eq_ok_iff, Except.ok.injEq] at h
        obtain ⟨others, hothers, rfl⟩ := h
        exact List.forall_mem_append.2
          ⟨expansion.isExpr_pairs, Expr.isExpr_lowerElements es hplain.2 hothers⟩
      | none =>
        simp only [bind_eq_ok_iff, Except.ok.injEq] at h
        obtain ⟨first, hfirst, others, hothers, rfl⟩ := h
        exact List.forall_mem_cons.2
          ⟨Expr.isExpr_lower e hplain.1 hfirst, Expr.isExpr_lowerElements es hplain.2 hothers⟩
    · rintro elements rfl
      exact hplain.1

theorem Expr.areMembers_lowerFields : ∀ (fields : List (String × Expr))
    {members result : List (String × Json)}, Expr.PlainFields fields → AreMembers members →
    Expr.lowerFields members fields = .ok result → AreMembers result
  | [], members, result, _, hmembers, h => by
    cases h
    exact hmembers
  | (key, e) :: fields, members, result, hplain, hmembers, h => by
    simp only [Expr.lowerFields, bind_eq_ok_iff] at h
    obtain ⟨value, hvalue, h⟩ := h
    have hinserted := hmembers.insert key (Expr.isExpr_lower e hplain.1 hvalue)
    exact Expr.areMembers_lowerFields fields hplain.2 hinserted h

end

/-! ## Parts of statements -/

open Json (IsQuoted IsScheme IsCondition IsTarget IsCall IsStatement AreBranches AreStatements
  IsProgram awaiting)

section

variable {scope : Scope} (hscope : scope.Resolving)

include hscope

theorem Expr.isExpr_lowerIn {e : Expr} (he : e.Plain) {j : Json} (h : e.lowerIn scope = .ok j) :
    IsExpr j :=
  Expr.isExpr_lower _ (Expr.plain_mapNames hscope e he) h

theorem Expr.isCondition_lowerOptionIn {condition : Option Expr} (hplain : ∀ e ∈ condition, e.Plain)
    {found : Option Json} (h : Expr.lowerOptionIn scope condition = .ok found) :
    IsCondition condition.isSome (optionalMember "if" found) := by
  cases condition with
  | none =>
    cases h
    exact .none
  | some e =>
    simp only [Expr.lowerOptionIn, bind_eq_ok_iff, Except.ok.injEq] at h
    obtain ⟨value, hvalue, rfl⟩ := h
    exact .some (Expr.isExpr_lowerIn hscope (hplain e rfl) hvalue)

theorem Expr.isScheme_lowerSchemeIn {scheme : Option (List (String × Expr))}
    (hplain : ∀ fields ∈ scheme, Expr.PlainFields fields) {found : Option Json}
    (h : Expr.lowerSchemeIn scope scheme = .ok found) :
    IsScheme (optionalMember "scheme" found) := by
  cases scheme with
  | none =>
    cases h
    exact .none
  | some fields =>
    simp only [Expr.lowerSchemeIn, bind_eq_ok_iff, Except.ok.injEq] at h
    obtain ⟨value, hvalue, rfl⟩ := h
    have hexpr := Expr.isExpr_lowerIn hscope (e := .object fields) (hplain fields rfl) hvalue
    simp only [Expr.lowerIn, Expr.mapNames, Expr.lower, bind_eq_ok_iff, Except.ok.injEq] at hvalue
    obtain ⟨members, -, rfl⟩ := hvalue
    exact .some hexpr

theorem Expr.isCall_lowerCallIn {name : Expr} {args : List Expr} (hname : name.Plain)
    (hargs : Expr.PlainEach args) {j : Json} (h : name.lowerCallIn scope args = .ok j) :
    IsCall j := by
  simp only [Expr.lowerCallIn, Expr.lowerList, bind_eq_ok_iff, Except.ok.injEq] at h
  obtain ⟨callee, hcallee, _, ⟨values, hvalues, rfl⟩, rfl⟩ := h
  exact .intro (Expr.isExpr_lowerIn hscope hname hcallee)
    (Expr.isExpr_lowerElements _ (Expr.plainEach_mapNames hscope args hargs) hvalues)

end

/-! ## Assignments -/

theorem Expr.isQuoted_lowerTarget {e : Expr} {j : Json} (h : e.lowerTarget = .ok j) :
    IsQuoted j := by
  cases e with
  | name x =>
    cases h
    exact ⟨x, rfl⟩
  | _ =>
    simp only [Expr.lowerTarget, bind_eq_ok_iff] at h
    obtain ⟨value, -, h⟩ := h
    cases h

theorem Expr.isQuoted_lowerTargets {es : List Expr} {targets : List Json}
    (h : Expr.lowerTargets es = .ok targets) : ∀ target ∈ targets, IsQuoted target := by
  induction es generalizing targets with
  | nil =>
    cases h
    exact nofun
  | cons e es ih =>
    simp only [Expr.lowerTargets, bind_eq_ok_iff, Except.ok.injEq] at h
    obtain ⟨first, hfirst, others, hothers, rfl⟩ := h
    exact List.forall_mem_cons.2 ⟨Expr.isQuoted_lowerTarget hfirst, ih hothers⟩

theorem Json.isTarget_targets {targets : List Json} (h : ∀ target ∈ targets, IsQuoted target) :
    IsTarget (.targets targets) := by
  rw [Json.targets.eq_def]
  split
  · exact .name (h _ List.mem_cons_self)
  · exact .names h

theorem Target.isStatement_lowerAssignment {scope : Scope} (hscope : scope.Resolving)
    {target : Target} {value : Expr} (htarget : target.Plain) (hvalue : value.Plain) {j : Json}
    (h : (target.mapNames scope).lowerAssignment (value.mapNames scope) = .ok j) :
    IsStatement .set j := by
  have hlowered : ∀ {v : Json}, (value.mapNames scope).lower = .ok v → IsExpr v :=
    Expr.isExpr_lower _ (Expr.plain_mapNames hscope value hvalue)
  simp only [Target.lowerAssignment, bind_eq_ok_iff, Except.ok.injEq] at h
  obtain ⟨⟨name, assigned⟩, h, rfl⟩ := h
  suffices hparts : IsTarget name ∧ IsExpr assigned from .set hparts.1 hparts.2
  cases target with
  | name x => exact htarget.elim
  | list elements =>
    simp only [Target.mapNames, Target.lower, bind_eq_ok_iff, Except.ok.injEq] at h
    obtain ⟨targets, htargets, v, hv, heq⟩ := h
    cases heq
    exact ⟨Json.isTarget_targets (Expr.isQuoted_lowerTargets htargets), hlowered hv⟩
  | edit root keys =>
    obtain ⟨-, -, hroot, hkeys⟩ := htarget
    simp only [Target.mapNames, Target.lower, bind_eq_ok_iff] at h
    obtain ⟨base, hbase, h⟩ := h
    have hbaseExpr := Expr.isExpr_lower _ (Expr.plain_mapNames hscope root hroot) hbase
    cases base with
    | string x =>
      simp only [bind_eq_ok_iff, Except.ok.injEq] at h
      obtain ⟨v, hv, values, hvalues, heq⟩ := h
      cases heq
      have hplain := Expr.plainEach_mapNames hscope keys (Expr.plainEach_iff.2 hkeys)
      refine ⟨.name ⟨x, rfl⟩, isExpr_operation (Json.head_quoted "edit") ?_⟩
      simp only [List.forall_mem_cons]
      exact ⟨hbaseExpr, hlowered hv, Expr.isExpr_lowerEach _ hplain hvalues⟩
    | _ => cases h

/-! ## Statements -/

theorem Expr.plainFields_of_eq_none {scheme : Option (List (String × Expr))} (h : scheme = none) :
    ∀ fields ∈ scheme, Expr.PlainFields fields := by
  rw [h]
  exact nofun

mutual

/-- A statement that can be written is lowered to a statement with its outline. -/
theorem Statement.isStatement_lower : ∀ (s : Statement) {scope : Scope} {j : Json},
    scope.Resolving → s.Plain → s.lower scope = .ok j → IsStatement s.outline j
  | .fork choice, scope, j, hscope, hplain, h => by
    obtain ⟨branches, scheme, hbranches, hscheme, rfl⟩ :=
      Fork.areBranches_lower choice hscope hplain.1 hplain.2 h
    rw [List.append_nil]
    exact .fork hbranches hscheme
  | .input result choice, scope, j, hscope, hplain, h => by
    obtain ⟨-, hnone, hplain⟩ := hplain
    have hinner := hscope.bind (Or.inl rfl) (scope result)
    obtain ⟨branches, scheme, hbranches, hscheme, rfl⟩ :=
      Fork.areBranches_lower choice hinner (Expr.plainFields_of_eq_none hnone) hplain h
    exact .input hbranches hscheme
  | .await condition body, scope, j, hscope, hplain, h => by
    simp only [Statement.lower, bind_eq_ok_iff, Except.ok.injEq] at h
    obtain ⟨statements, hstatements, value, hvalue, rfl⟩ := h
    exact .await (Statement.areStatements_lowerEach body hscope hplain.2 hstatements)
      (Expr.isExpr_lowerIn hscope hplain.1 hvalue)
  | .once body, scope, j, hscope, hplain, h => by
    simp only [Statement.lower, bind_eq_ok_iff, Except.ok.injEq] at h
    obtain ⟨statements, hstatements, rfl⟩ := h
    exact .once (Statement.areStatements_lowerEach body hscope hplain hstatements)
  | .perform verb value, scope, j, hscope, hplain, h => by
    simp only [Statement.lower, bind_eq_ok_iff, Except.ok.injEq] at h
    obtain ⟨v, hv, rfl⟩ := h
    exact .perform verb (Expr.isExpr_lowerIn hscope hplain hv)
  | .set target value, scope, j, hscope, hplain, h =>
    Target.isStatement_lowerAssignment hscope hplain.1 hplain.2 h
  | .run name args none none, scope, j, hscope, hplain, h => by
    simp only [Statement.lower, bind_eq_ok_iff, Except.ok.injEq] at h
    obtain ⟨call, hcall, rfl⟩ := h
    exact .run (Expr.isCall_lowerCallIn hscope hplain.1 hplain.2.1 hcall)
  | .run _ _ none (some _), _, _, _, hplain, _ => by
    obtain ⟨-, -, ⟨x, hx, -⟩, -⟩ := hplain
    cases hx
  | .run name args (some result) none, scope, j, hscope, hplain, h => by
    simp only [Statement.lower, bind_eq_ok_iff, Except.ok.injEq] at h
    obtain ⟨call, hcall, rfl⟩ := h
    have hset : IsStatement .set
        (.object [("@set", .string (quoted (scope result))), ("val", .string Scope.returnName)]) :=
      .set (.name ⟨_, rfl⟩) (.string (by decide))
    exact .handledRun (Expr.isCall_lowerCallIn hscope hplain.1 hplain.2.1 hcall)
      (.cons (.cons hset .nil) .none .nil) .none
  | .run name args (some result) (some choice), scope, j, hscope, hplain, h => by
    obtain ⟨hname, hargs, -, hnone, hplain⟩ := hplain
    have hinner := hscope.bind (Or.inr rfl) (scope result)
    simp only [Statement.lower, bind_eq_ok_iff, Except.ok.injEq] at h
    obtain ⟨call, hcall, handler, hhandler, rfl⟩ := h
    obtain ⟨branches, scheme, hbranches, hscheme, rfl⟩ :=
      Fork.areBranches_lower choice hinner (Expr.plainFields_of_eq_none hnone) hplain hhandler
    exact .handledRun (Expr.isCall_lowerCallIn hscope hname hargs hcall) hbranches hscheme
  | .use name imports, scope, j, hscope, hplain, h => by
    obtain ⟨⟨source, rfl⟩, -, himports⟩ := hplain
    simp only [Statement.lower, bind_eq_ok_iff, Except.ok.injEq] at h
    obtain ⟨module, hmodule, rfl⟩ := h
    refine .use (Expr.isExpr_lowerIn hscope (e := .literal (.string source)) trivial hmodule) ?_
    intro j hj
    obtain ⟨value, hvalue, rfl⟩ := List.mem_map.1 hj
    obtain ⟨x, rfl, -⟩ := himports value hvalue
    exact ⟨x, rfl⟩
  | .define name params body, scope, j, hscope, hplain, h => by
    simp only [Statement.lower, bind_eq_ok_iff, Except.ok.injEq] at h
    obtain ⟨statements, hstatements, rfl⟩ := h
    refine .define ?_ (Statement.areStatements_lowerEach body hscope hplain.2.2 hstatements)
    intro j hj
    obtain ⟨x, -, rfl⟩ := List.mem_map.1 hj
    exact ⟨scope x, rfl⟩

theorem Fork.areBranches_lower : ∀ (choice : Fork Statement) {scope : Scope}
    {members : List (String × Json)} {j : Json}, scope.Resolving →
    (∀ fields ∈ choice.scheme, Expr.PlainFields fields) → Fork.PlainBranches choice →
    Fork.lower scope members choice = .ok j →
    ∃ branches scheme, AreBranches (Fork.arms choice) branches ∧ IsScheme scheme ∧
      j = .fork branches (scheme ++ members)
  | ⟨scheme, branches⟩, scope, members, j, hscope, hscheme, hplain, h => by
    simp only [Fork.lower, bind_eq_ok_iff, Except.ok.injEq] at h
    obtain ⟨found, hfound, data, hdata, rfl⟩ := h
    exact ⟨found, _, Branch.areBranches_lowerEach branches hscope hplain hfound,
      Expr.isScheme_lowerSchemeIn hscope hscheme hdata, rfl⟩

theorem Branch.areBranches_lowerEach : ∀ (branches : List (Branch Statement)) {scope : Scope}
    {found : List Json}, scope.Resolving → Branch.PlainEach branches →
    Branch.lowerEach scope branches = .ok found → AreBranches (Branch.armEach branches) found
  | [], _, _, _, _, h => by
    cases h
    exact .nil
  | ⟨condition, body⟩ :: branches, scope, found, hscope, hplain, h => by
    simp only [Branch.lowerEach, bind_eq_ok_iff, Except.ok.injEq] at h
    obtain ⟨statements, hstatements, value, hvalue, others, hothers, rfl⟩ := h
    exact .cons (Statement.areStatements_lowerEach body hscope hplain.2.1 hstatements)
      (Expr.isCondition_lowerOptionIn hscope hplain.1 hvalue)
      (Branch.areBranches_lowerEach branches hscope hplain.2.2 hothers)

theorem Statement.areStatements_lowerEach : ∀ (statements : List Statement) {scope : Scope}
    {found : List Json}, scope.Resolving → Statement.PlainEach statements →
    Statement.lowerEach scope statements = .ok found →
    AreStatements (Statement.outlineEach statements) found
  | [], _, _, _, _, h => by
    cases h
    exact .nil
  | s :: statements, scope, found, hscope, hplain, h => by
    simp only [Statement.lowerEach, bind_eq_ok_iff, Except.ok.injEq] at h
    obtain ⟨first, hfirst, others, hothers, rfl⟩ := h
    exact .cons (Statement.isStatement_lower s hscope hplain.1 hfirst)
      (Statement.areStatements_lowerEach statements hscope hplain.2 hothers)

end

/-! ## Programs -/

namespace Json

/-- Only a fork, or a fork that waits for input, has the key of a fork. -/
theorem IsStatement.shape_of_fork {o : Outline} {j : Json} (h : IsStatement o j)
    (hfork : (j.member? "@fork").isSome = true) : o.shape = .fork ∨ o.shape = .input := by
  cases h with
  | fork => exact Or.inl rfl
  | input => exact Or.inr rfl
  | perform verb => cases verb <;> cases hfork
  | _ => cases hfork

theorem AreStatements.isProgram_simplify {outlines : List Outline} {statements : List Json}
    (h : AreStatements outlines statements) :
    IsProgram outlines (Json.block statements []).simplify := by
  rw [Json.simplify]
  cases hsingle : (Json.block statements []).singleFork? with
  | none => exact .block h
  | some statement =>
    rw [Json.singleFork?.eq_def] at hsingle
    split at hsingle
    · rename_i heq
      split at hsingle
      · rename_i hfork
        cases hsingle
        cases heq
        cases h with
        | cons hfirst hothers =>
          cases hothers
          exact .single (hfirst.shape_of_fork hfork.2) hfirst
      · cases hsingle
    · cases hsingle

end Json

/-- Every text that compiles gives a program in the grammar, with the outline of the script. -/
theorem exists_isProgram_of_compile {source : String} {program : Json}
    (h : compile source = .ok program) :
    ∃ script, Script.read source = .ok script ∧
      IsProgram (Statement.outlineEach script) program := by
  simp only [compile, bind_eq_ok_iff, mapError_eq_ok_iff, Except.ok.injEq] at h
  obtain ⟨script, hread, lowered, hlowered, rfl⟩ := h
  simp only [Script.lower, bind_eq_ok_iff, Except.ok.injEq] at hlowered
  obtain ⟨statements, hstatements, rfl⟩ := hlowered
  have hplain : Statement.PlainEach script := Script.plain_of_read hread
  exact ⟨script, hread, (Statement.areStatements_lowerEach script Scope.resolving_id hplain
    hstatements).isProgram_simplify⟩

/-- Every text that compiles gives a program in the grammar: a block of statements or a single fork,
each statement in one of the shapes, and in expressions no empty array, no repeated key and no key
but those in backticks. Its outline, which is the only one it has, is that of the script: the
statements and branches of the program are those of the script, in order. -/
theorem compile_isProgram (source : String) (program : Json)
    (h : compile source = .ok program) :
    ∃ script, Script.read source = .ok script ∧
      IsProgram (Statement.outlineEach script) program ∧
      ∀ outlines, IsProgram outlines program → outlines = Statement.outlineEach script := by
  obtain ⟨script, hread, hprogram⟩ := exists_isProgram_of_compile h
  exact ⟨script, hread, hprogram, fun outlines houtlines => houtlines.unique hprogram⟩

/-- A bare result is assigned in one branch without a condition. -/
theorem compile_isProgram_bareResult :
    ∃ program, compile "await x \x7b run f -> r \x7d" = .ok program ∧
      IsProgram [.await [.run (some [⟨false, [.set]⟩])]] program := by
  have hscript : Script.read "await x \x7b run f -> r \x7d" =
      .ok [.await (.name "x") [.run (.name "f") [] (some "r") none]] := rfl
  have hcompile : ∃ program, compile "await x \x7b run f -> r \x7d" = .ok program := by
    rw [compile, hscript]
    exact ⟨_, rfl⟩
  obtain ⟨program, hprogram⟩ := hcompile
  obtain ⟨script, hread, hgrammar, -⟩ := compile_isProgram _ program hprogram
  rw [hscript] at hread
  cases hread
  exact ⟨program, hprogram, hgrammar⟩

end Dialogue
