import Dialogue.Proofs.Scope.Labels
import Dialogue.Proofs.Scope.Names

/-!
# What renaming changes

Renaming maps the labels of identifiers and keeps all other labels (`Fork.labels_mapNames`). Since
the labels of a fork determine it, this says what becomes of the whole fork. A list of renamings
comes to one map of names, `renamedEach`, and `Fork.renameEach_labels` puts the two together.
-/

namespace Dialogue

namespace Label

/-- The label with its name changed, if it is that of an identifier. -/
@[simp] def mapName (f : String → String) : Label → Label
  | .identifier name => .identifier (f name)
  | label => label

/-- The name of a label that is that of an identifier. -/
def identifier? : Label → Option String
  | .identifier name => some name
  | _ => none

theorem identifier?_mapName (f : String → String) (label : Label) :
    (label.mapName f).identifier? = label.identifier?.map f := by
  cases label <;> rfl

end Label

/-! ## Labels under renaming -/

section

variable (f : String → String)

@[simp] theorem Expr.length_mapNamesOfList (es : List Expr) :
    (Expr.mapNamesOfList f es).length = es.length := by
  induction es with
  | nil => rfl
  | cons e es ih => simp [Expr.mapNamesOfList, ih]

@[simp] theorem Expr.keys_mapNamesOfFields (fields : List (String × Expr)) :
    (Expr.mapNamesOfFields f fields).map Prod.fst = fields.map Prod.fst := by
  induction fields with
  | nil => rfl
  | cons field fields ih => simp [Expr.mapNamesOfFields, ih]

@[simp] theorem Statement.length_mapNamesOfList (statements : List Statement) :
    (Statement.mapNamesOfList f statements).length = statements.length := by
  induction statements with
  | nil => rfl
  | cons s statements ih => simp [Statement.mapNamesOfList, ih]

@[simp] theorem Branch.length_mapNamesOfList (branches : List (Branch Statement)) :
    (Branch.mapNamesOfList f branches).length = branches.length := by
  induction branches with
  | nil => rfl
  | cons branch branches ih => simp [Branch.mapNamesOfList, ih]

mutual

theorem Expr.labels_mapNames : ∀ e : Expr,
    labels (e.mapNames f).nodes = (labels e.nodes).map (Label.mapName f)
  | .binary op left right => by
    simp [Expr.mapNames, Expr.nodes, left.labels_mapNames,
      right.labels_mapNames]
  | .not operand => by
    simp [Expr.mapNames, Expr.nodes, operand.labels_mapNames]
  | .call callee args => by
    simp [Expr.mapNames, Expr.nodes, callee.labels_mapNames,
      Expr.labels_mapNamesOfList args]
  | .member target property => by
    simp [Expr.mapNames, Expr.nodes, target.labels_mapNames,
      property.labels_mapNames]
  | .name x => by simp [Expr.mapNames, Expr.nodes]
  | .literal value => by simp [Expr.mapNames, Expr.nodes]
  | .array elements => by
    simp [Expr.mapNames, Expr.nodes, Expr.labels_mapNamesOfList elements]
  | .object fields => by
    simp [Expr.mapNames, Expr.nodes, Expr.labels_mapNamesOfFields fields]
  | .spread elements => by
    simp [Expr.mapNames, Expr.nodes, Expr.labels_mapNamesOfList elements]

theorem Expr.labels_mapNamesOfList : ∀ es : List Expr,
    labels (Expr.nodesOfList (Expr.mapNamesOfList f es)) =
      (labels (Expr.nodesOfList es)).map (Label.mapName f)
  | [] => rfl
  | e :: es => by
    simp [Expr.mapNamesOfList, Expr.nodesOfList, e.labels_mapNames, Expr.labels_mapNamesOfList es]

theorem Expr.labels_mapNamesOfFields : ∀ fields : List (String × Expr),
    labels (Expr.nodesOfFields (Expr.mapNamesOfFields f fields)) =
      (labels (Expr.nodesOfFields fields)).map (Label.mapName f)
  | [] => rfl
  | (_, e) :: fields => by
    simp [Expr.mapNamesOfFields, Expr.nodesOfFields, e.labels_mapNames,
      Expr.labels_mapNamesOfFields fields]

end

theorem Target.labels_mapNames (target : Target) :
    labels (target.mapNames f).nodes = (labels target.nodes).map (Label.mapName f) := by
  cases target with
  | name x => rfl
  | list elements => exact Expr.labels_mapNamesOfList f elements
  | edit root keys =>
    simp [Target.mapNames, Target.nodes, Expr.labels_mapNames, Expr.labels_mapNamesOfList]

theorem Expr.labels_map_mapNames (condition : Option Expr) :
    labels (Expr.nodesOfOption (condition.map (Expr.mapNames f))) =
      (labels (Expr.nodesOfOption condition)).map (Label.mapName f) := by
  cases condition with
  | none => rfl
  | some e => exact e.labels_mapNames f

theorem Expr.labels_map_mapNamesOfFields (scheme : Option (List (String × Expr))) :
    labels (Expr.nodesOfScheme (scheme.map (Expr.mapNamesOfFields f))) =
      (labels (Expr.nodesOfScheme scheme)).map (Label.mapName f) := by
  cases scheme with
  | none => rfl
  | some fields => exact Expr.labels_mapNamesOfFields f fields

theorem Target.form_mapNames (target : Target) : (target.mapNames f).form = target.form := by
  cases target <;> simp [Target.mapNames, Target.form]

/-- Identifiers that stand side by side are mapped one by one. -/
theorem labels_map_identifier (names : List String) :
    labels (names.map (Node.identifier ∘ f)) =
      (labels (names.map Node.identifier)).map (Label.mapName f) := by
  simp [labels, Function.comp_def]

theorem labels_map_literal (imports : List Literal) :
    (labels (imports.map Node.literal)).map (Label.mapName f) =
      labels (imports.map Node.literal) := by
  simp [labels, Function.comp_def]

mutual

theorem Statement.labels_mapNames : ∀ s : Statement,
    labels (s.mapNames f).nodes = (labels s.nodes).map (Label.mapName f)
  | .fork choice => by
    simp [Statement.mapNames, Statement.nodes, Fork.labels_mapNames choice]
  | .input result choice => by
    simp [Statement.mapNames, Statement.nodes, Fork.labels_mapNames choice]
  | .await condition body => by
    simp [Statement.mapNames, Statement.nodes, condition.labels_mapNames,
      Statement.labels_mapNamesOfList body]
  | .once body => by
    simp [Statement.mapNames, Statement.nodes, Statement.labels_mapNamesOfList body]
  | .perform verb value => by
    simp [Statement.mapNames, Statement.nodes, value.labels_mapNames]
  | .set target value => by
    simp [Statement.mapNames, Statement.nodes, target.labels_mapNames, target.form_mapNames,
      value.labels_mapNames]
  | .run name args result none => by
    cases result <;>
      simp [Statement.mapNames, Statement.nodes, name.labels_mapNames, Expr.labels_mapNamesOfList]
  | .run name args result (some choice) => by
    cases result <;>
      simp [Statement.mapNames, Statement.nodes, name.labels_mapNames, Expr.labels_mapNamesOfList,
        Fork.labels_mapNames choice]
  | .use name imports => by
    simp [Statement.mapNames, Statement.nodes, name.labels_mapNames, labels_map_literal]
  | .define name params body => by
    simp [Statement.mapNames, Statement.nodes, labels_map_identifier,
      Statement.labels_mapNamesOfList body]

theorem Fork.labels_mapNames : ∀ choice : Fork Statement,
    labels (Fork.nodes (Fork.mapNames f choice)) =
      (labels (Fork.nodes choice)).map (Label.mapName f)
  | ⟨scheme, branches⟩ => by
    simp [Fork.mapNames, Fork.nodes, Function.comp_def, Expr.labels_map_mapNamesOfFields,
      Branch.labels_mapNamesOfList branches]

theorem Branch.labels_mapNamesOfList : ∀ branches : List (Branch Statement),
    labels (Branch.nodesOfList (Branch.mapNamesOfList f branches)) =
      (labels (Branch.nodesOfList branches)).map (Label.mapName f)
  | [] => rfl
  | ⟨condition, body⟩ :: branches => by
    simp [Branch.mapNamesOfList, Branch.nodesOfList, Expr.labels_map_mapNames,
      Statement.labels_mapNamesOfList body, Branch.labels_mapNamesOfList branches]

theorem Statement.labels_mapNamesOfList : ∀ statements : List Statement,
    labels (Statement.nodesOfList (Statement.mapNamesOfList f statements)) =
      (labels (Statement.nodesOfList statements)).map (Label.mapName f)
  | [] => rfl
  | s :: statements => by
    simp [Statement.mapNamesOfList, Statement.nodesOfList, s.labels_mapNames,
      Statement.labels_mapNamesOfList statements]

end

end

/-! ## Renaming -/

/-- A name after a list of renamings, done one after the other. -/
def renamedEach : List (String × String) → String → String
  | [], x => x
  | (old, new) :: pairs, x => renamedEach pairs (renamed old new x)

/-- A fork is what mapping the names of another makes of it exactly if its labels are those of the
other with the names of identifiers mapped. -/
theorem Fork.eq_mapNames_iff {f : String → String} {choice result : Fork Statement} :
    result = Fork.mapNames f choice ↔ result.labels = choice.labels.map (Label.mapName f) := by
  rw [show choice.labels.map (Label.mapName f) = (Fork.mapNames f choice).labels from
    (Fork.labels_mapNames f choice).symm]
  constructor
  · rintro rfl
    rfl
  · exact Fork.eq_of_labels

theorem Fork.mapNames_id (choice : Fork Statement) : Fork.mapNames id choice = choice := by
  symm
  rw [Fork.eq_mapNames_iff]
  have hid : Label.mapName id = id := by
    funext label
    cases label <;> rfl
  rw [hid, List.map_id]

theorem Fork.identifiers_eq (choice : Fork Statement) :
    choice.identifiers = choice.labels.filterMap Label.identifier? := by
  unfold Fork.identifiers Fork.labels Dialogue.labels
  rw [List.filterMap_map]
  congr 1
  funext node
  cases node <;> rfl

theorem Fork.identifiers_mapNames (f : String → String) (choice : Fork Statement) :
    (Fork.mapNames f choice).identifiers = choice.identifiers.map f := by
  rw [Fork.identifiers_eq, Fork.identifiers_eq, Fork.eq_mapNames_iff.1 rfl, List.filterMap_map,
    List.map_filterMap]
  congr 1
  funext label
  exact label.identifier?_mapName f

theorem Fork.mem_identifiers {choice : Fork Statement} {x : String} :
    x ∈ choice.identifiers ↔ Node.identifier x ∈ Fork.nodes choice := by
  rw [Fork.identifiers, List.mem_filterMap]
  constructor
  · rintro ⟨node, hnode, hx⟩
    cases node with
    | identifier y =>
      cases hx
      exact hnode
    | _ => cases hx
  · exact fun hx => ⟨.identifier x, hx, rfl⟩

/-- Renamings that are done one after the other come to one map of names. -/
theorem Fork.getLastD_renameEach (pairs : List (String × String)) (choice : Fork Statement) :
    (choice.renameEach pairs).getLastD choice = Fork.mapNames (renamedEach pairs) choice := by
  induction pairs generalizing choice with
  | nil => exact (Fork.mapNames_id choice).symm
  | cons pair pairs ih =>
    obtain ⟨old, new⟩ := pair
    rw [Fork.renameEach, List.getLastD_cons, ih, Fork.rename, Fork.mapNames_mapNames]
    rfl

/-- Only a name that was the new one already is lost when a renaming is undone. -/
theorem renamed_renamed_eq_iff (old new x : String) :
    renamed new old (renamed old new x) = x ↔ x ≠ new ∨ old = new := by
  unfold renamed
  by_cases hold : x = old
  · subst hold
    have hsame : x ≠ new ∨ x = new := (Decidable.em (x = new)).symm
    simp [hsame]
  · by_cases hnew : x = new
    · subst hnew
      simp [hold]
    · simp [hold, hnew]

theorem Fork.rename_rename_eq_iff (choice : Fork Statement) (old new : String) :
    (choice.rename old new).rename new old = choice ↔ new ∉ choice.identifiers ∨ old = new := by
  have hback : (choice.rename old new).rename new old =
      Fork.mapNames (renamed new old ∘ renamed old new) choice := Fork.mapNames_mapNames _ _ choice
  have hiff := @Fork.mapNames_eq_iff (renamed new old ∘ renamed old new) id choice
  rw [Fork.mapNames_id] at hiff
  rw [hback, hiff]
  simp only [Function.comp_apply, id, renamed_renamed_eq_iff, ← Fork.mem_identifiers]
  constructor
  · intro h
    by_cases hnew : new ∈ choice.identifiers
    · exact Or.inr ((h new hnew).resolve_left fun hne => hne rfl)
    · exact Or.inl hnew
  · rintro (hnew | hold) x hx
    · exact Or.inl fun heq => hnew (heq ▸ hx)
    · exact Or.inr hold

/-- Renaming changes the names of identifiers and nothing else. After a list of renamings, a fork
has the labels it had, in the same order, with the names of identifiers renamed one after the
other; it is the only fork that has them. So the identifiers of the walk are renamed in their
places, and renaming back gives the same fork exactly if the new name was not an identifier of it
(or is the old one). -/
theorem Fork.renameEach_labels (choice : Fork Statement) (pairs : List (String × String)) :
    (∀ result, result = (choice.renameEach pairs).getLastD choice ↔
      result.labels = choice.labels.map (Label.mapName (renamedEach pairs))) ∧
    ((choice.renameEach pairs).getLastD choice).identifiers =
      choice.identifiers.map (renamedEach pairs) ∧
    ∀ old new, (choice.rename old new).rename new old = choice ↔
      new ∉ choice.identifiers ∨ old = new := by
  rw [Fork.getLastD_renameEach]
  exact ⟨fun result => Fork.eq_mapNames_iff, Fork.identifiers_mapNames _ choice,
    Fork.rename_rename_eq_iff choice⟩

end Dialogue
