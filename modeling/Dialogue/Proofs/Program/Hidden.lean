import Dialogue.Proofs.Program.References

/-!
# Results stay hidden

The name of a result is one of the script only: in the branches of an `input`, or of a `run` that
has branches, it has become a reserved name everywhere. So it stands nowhere in the fork that these
branches are lowered to, neither as a name nor as something that is assigned to or defined
(`Statement.hides_result`).

What carries this is an invariant of scopes. A scope *hides* a name if nothing has become that name.
Binding a name hides it (`Scope.hides_bind`), further bindings keep it hidden
(`Scope.Hides.bind`), and what is lowered in a scope takes its names from there, apart from a few
words of the runtime.
-/

namespace Dialogue

open Reader (isSymbol)

/-! ## What is assigned to -/

namespace Json

/-- Whether the member of an object with a given key holds what is assigned to or defined. -/
def IsHeader (key : String) : Prop := key = "@set" ∨ key = "@def"

instance (key : String) : Decidable (IsHeader key) :=
  inferInstanceAs (Decidable (key = "@set" ∨ key = "@def"))

mutual

/-- The strings in the targets of assignments and in the headers of definitions, at any depth. -/
def assigned : Json → List String
  | .array elements => assignedEach elements
  | .object members => assignedOfMembers members
  | _ => []

/-- What is assigned to in JSON values. -/
def assignedEach : List Json → List String
  | [] => []
  | value :: values => value.assigned ++ assignedEach values

/-- What is assigned to in the members of an object. -/
def assignedOfMembers : List (String × Json) → List String
  | [] => []
  | (key, value) :: members =>
    (if IsHeader key then value.strings else value.assigned) ++ assignedOfMembers members

end

/-- A name stands in a value neither as a string nor, in backticks, as something that is assigned
to or defined. -/
structure Hides (r : String) (j : Json) : Prop where
  strings : r ∉ j.strings
  assigned : quoted r ∉ j.assigned

section

variable {r : String}

theorem mem_stringsEach {values : List Json} :
    r ∈ stringsEach values ↔ ∃ value ∈ values, r ∈ value.strings := by
  induction values with
  | nil => simp [stringsEach]
  | cons value values ih => simp [stringsEach, ih]

theorem mem_assignedEach {values : List Json} :
    r ∈ assignedEach values ↔ ∃ value ∈ values, r ∈ value.assigned := by
  induction values with
  | nil => simp [assignedEach]
  | cons value values ih => simp [assignedEach, ih]

theorem mem_assignedOfMembers {members : List (String × Json)} :
    r ∈ assignedOfMembers members ↔ ∃ member ∈ members,
      r ∈ if IsHeader member.1 then member.2.strings else member.2.assigned := by
  induction members with
  | nil => simp [assignedOfMembers]
  | cons member members ih => simp [assignedOfMembers, ih]

theorem hides_iff {j : Json} : j.Hides r ↔ r ∉ j.strings ∧ quoted r ∉ j.assigned :=
  ⟨fun h => ⟨h.strings, h.assigned⟩, fun h => ⟨h.1, h.2⟩⟩

@[simp]
theorem hides_bool (value : Bool) : (bool value).Hides r :=
  ⟨List.not_mem_nil, List.not_mem_nil⟩

@[simp]
theorem hides_string_iff {text : String} : (string text).Hides r ↔ r ≠ text := by
  simp [hides_iff, strings, assigned]

@[simp]
theorem hides_array_iff {values : List Json} :
    (array values).Hides r ↔ ∀ value ∈ values, value.Hides r := by
  simp only [hides_iff, strings, assigned, mem_stringsEach, mem_assignedEach, not_exists, not_and,
    forall_and]

/-- What is said of a member: under a header, also the name in backticks is missing. -/
def HidesMember (r : String) (member : String × Json) : Prop :=
  r ∉ member.2.strings ∧
    quoted r ∉ if IsHeader member.1 then member.2.strings else member.2.assigned

theorem hides_object_iff {members : List (String × Json)} :
    (object members).Hides r ↔ ∀ member ∈ members, HidesMember r member := by
  simp only [hides_iff, HidesMember, strings, assigned, mem_stringsOfMembers, mem_assignedOfMembers,
    not_exists, not_and, forall_and]

theorem Hides.member {value : Json} (h : value.Hides r) {key : String} (hkey : ¬ IsHeader key) :
    HidesMember r (key, value) := by
  refine ⟨h.strings, ?_⟩
  rw [if_neg hkey]
  exact h.assigned

/-- All strings of a value are names in backticks, and other names than a given one. -/
def NamesOthers (r : String) (j : Json) : Prop :=
  ∀ text ∈ j.strings, ∃ x, r ≠ x ∧ text = quoted x

theorem namesOthers_quoted {x : String} (h : r ≠ x) : (string (quoted x)).NamesOthers r :=
  fun _ htext => ⟨x, h, List.mem_singleton.1 htext⟩

theorem namesOthers_array {values : List Json} (h : ∀ value ∈ values, value.NamesOthers r) :
    (array values).NamesOthers r := by
  intro text htext
  obtain ⟨value, hvalue, htext⟩ := mem_stringsEach.1 htext
  exact h value hvalue text htext

theorem namesOthers_targets {values : List Json} (h : ∀ value ∈ values, value.NamesOthers r) :
    (Json.targets values).NamesOthers r := by
  unfold Json.targets
  split
  · exact h _ List.mem_cons_self
  · exact namesOthers_array h

theorem NamesOthers.member (hr : isSymbol r = true) {value : Json} (h : value.NamesOthers r)
    {key : String} (hkey : IsHeader key) : HidesMember r (key, value) := by
  refine ⟨fun hmem => ?_, ?_⟩
  · obtain ⟨x, -, heq⟩ := h r hmem
    exact ne_quoted_of_isSymbol hr x heq
  · rw [if_pos hkey]
    intro hmem
    obtain ⟨x, hne, heq⟩ := h _ hmem
    exact hne (quoted_inj heq)

/-- The keys of an expression are in backticks, so nothing in it is assigned to. -/
theorem not_isHeader_quoted (text : String) : ¬ IsHeader (quoted text) := by
  have hhead : ∀ key, IsHeader key → key.toList.head? = some '@' := by
    rintro key (rfl | rfl) <;> rfl
  exact fun h => head_quoted text (hhead _ h)

theorem IsExpr.hides {j : Json} (h : IsExpr j) (hr : r ∉ j.strings) : j.Hides r := by
  induction h with
  | array hne h ih =>
    rw [hides_array_iff]
    intro value hvalue
    apply ih value hvalue
    exact fun hmem => hr (mem_stringsEach.2 ⟨value, hvalue, hmem⟩)
  | object hkeys nodup h ih =>
    rw [hides_object_iff]
    intro member hmember
    obtain ⟨key, hkey⟩ := hkeys member hmember
    have hnot : r ∉ member.2.strings :=
      fun hmem => hr (mem_stringsOfMembers.2 ⟨member, hmember, hmem⟩)
    apply (ih member hmember hnot).member
    rw [hkey]
    exact not_isHeader_quoted key
  | _ => exact ⟨hr, List.not_mem_nil⟩

end

end Json

/-! ## Scopes -/

namespace Scope

/-- Nothing has become a given name. -/
def Hides (scope : Scope) (r : String) : Prop := ∀ x, r ≠ scope x

variable {scope : Scope} {r reserved : String}

theorem hides_bind (h : r ≠ reserved) : (scope.bind r reserved).Hides r := by
  intro x
  rw [bind, renamed]
  split
  · exact h
  · rename_i hne
    exact Ne.symm hne

theorem Hides.bind (hscope : scope.Hides r) (h : r ≠ reserved) (current : String) :
    (scope.bind current reserved).Hides r := by
  intro x
  rw [Scope.bind, renamed]
  split
  · exact h
  · exact hscope x

end Scope

/-! ## Expressions -/

/-- A name that lowering puts into no program of its own accord. -/
structure Unspoken (r : String) : Prop where
  symbol : isSymbol r = true
  not_mem : r ∉ [Scope.inputName, Scope.returnName, "get", "in", "input", "return"]

section

variable {r : String}

theorem Unspoken.ne (hr : Unspoken r) {word : String}
    (hword : word ∈ [Scope.inputName, Scope.returnName, "get", "in", "input", "return"]) :
    r ≠ word := by
  rintro rfl
  exact hr.not_mem hword

theorem Json.hides_operation {head : String} (hhead : r ≠ head) {operands : List Json}
    (h : ∀ operand ∈ operands, operand.Hides r) :
    (Json.array (.string head :: operands)).Hides r := by
  rw [Json.hides_array_iff, List.forall_mem_cons]
  exact ⟨Json.hides_string_iff.2 hhead, h⟩

theorem Unspoken.hides_literal (hr : Unspoken r) (value : Literal) : value.lower.Hides r :=
  value.isExpr_lower.hides (not_mem_strings_literal hr.symbol value)

mutual

/-- The names in what an expression is lowered to are names of its identifiers. -/
theorem Expr.hides_lower (hr : Unspoken r) : ∀ (e : Expr) {j : Json}, r ∉ e.identifiers →
    e.lower = .ok j → j.Hides r
  | .binary op left right, j, hnot, h => by
    simp only [Expr.lower, bind_eq_ok_iff, Except.ok.injEq] at h
    obtain ⟨first, hfirst, second, hsecond, rfl⟩ := h
    rw [Expr.identifiers_binary, List.mem_append, not_or] at hnot
    have hleft := Expr.hides_lower hr left hnot.1 hfirst
    have hright := Expr.hides_lower hr right hnot.2 hsecond
    apply Json.hides_operation (ne_symbol_of_isSymbol hr.symbol (hr.ne (by simp)) op)
    simp [hleft, hright]
  | .not operand, j, hnot, h => by
    simp only [Expr.lower, bind_eq_ok_iff, Except.ok.injEq] at h
    obtain ⟨value, hvalue, rfl⟩ := h
    have hoperand := Expr.hides_lower hr operand hnot hvalue
    apply Json.hides_operation (ne_of_isSymbol hr.symbol (by decide))
    simp [hoperand]
  | .call callee args, j, hnot, h => by
    rw [Expr.identifiers_call, List.mem_append, not_or] at hnot
    rw [Expr.lower] at h
    split at h
    · exact Expr.hides_lowerExists hr args hnot.2 h
    split at h
    · simp only [bind_eq_ok_iff, Except.ok.injEq] at h
      obtain ⟨expansion, -, rfl⟩ := h
      exact expansion.isExpr_lower.hides (not_mem_strings_expansion hr.symbol expansion)
    · simp only [bind_eq_ok_iff, Except.ok.injEq] at h
      obtain ⟨head, hhead, values, hvalues, rfl⟩ := h
      have hcallee := Expr.hides_lower hr callee hnot.1 hhead
      have hargs := Expr.hides_lowerEach hr args hnot.2 hvalues
      rw [Json.hides_array_iff, List.forall_mem_cons]
      exact ⟨hcallee, hargs⟩
  | .member target property, j, hnot, h => by
    simp only [Expr.lower, bind_eq_ok_iff, Except.ok.injEq] at h
    obtain ⟨key, hkey, root, hroot, rfl⟩ := h
    rw [Expr.identifiers_member, List.mem_append, not_or] at hnot
    have htarget := Expr.hides_lower hr target hnot.1 hroot
    have hproperty := Expr.hides_lower hr property hnot.2 hkey
    apply Json.hides_operation (hr.ne (by simp))
    simp [htarget, hproperty]
  | .name x, j, hnot, h => by
    cases h
    rw [lowerName]
    split
    · exact ⟨List.not_mem_nil, List.not_mem_nil⟩
    · rw [Json.hides_string_iff]
      rintro rfl
      exact hnot List.mem_cons_self
  | .literal value, j, _, h => by
    cases h
    exact hr.hides_literal value
  | .array elements, j, hnot, h => by
    simp only [Expr.lower, bind_eq_ok_iff, Except.ok.injEq] at h
    obtain ⟨values, hvalues, rfl⟩ := h
    apply Json.hides_operation (ne_of_isSymbol hr.symbol (by decide))
    exact Expr.hides_lowerElements hr elements hnot hvalues
  | .object fields, j, hnot, h => by
    simp only [Expr.lower, bind_eq_ok_iff, Except.ok.injEq] at h
    obtain ⟨members, hmembers, rfl⟩ := h
    rw [Json.hides_object_iff]
    exact Expr.hides_lowerFields hr fields (List.forall_mem_nil _) hnot hmembers
  | .spread elements, j, hnot, h => by
    simp only [Expr.lower, bind_eq_ok_iff, Except.ok.injEq] at h
    obtain ⟨values, hvalues, rfl⟩ := h
    rw [Json.hides_array_iff]
    exact Expr.hides_lowerEach hr elements hnot hvalues

theorem Expr.hides_lowerExists (hr : Unspoken r) : ∀ (args : List Expr) {j : Json},
    r ∉ Expr.identifiersOfList args → Expr.lowerExists args = .ok j → j.Hides r
  | [], _, _, h => by cases h
  | e :: es, j, hnot, h => by
    simp only [Expr.lowerExists, bind_eq_ok_iff, Except.ok.injEq] at h
    obtain ⟨value, hvalue, rfl⟩ := h
    rw [Expr.identifiersOfList_cons, List.mem_append, not_or] at hnot
    have he := Expr.hides_lower hr e hnot.1 hvalue
    apply Json.hides_operation (ne_of_isSymbol hr.symbol (by decide))
    simp [he]

theorem Expr.hides_lowerEach (hr : Unspoken r) : ∀ (es : List Expr) {values : List Json},
    r ∉ Expr.identifiersOfList es → Expr.lowerEach es = .ok values →
    ∀ value ∈ values, value.Hides r
  | [], _, _, h => by
    cases h
    exact nofun
  | e :: es, values, hnot, h => by
    simp only [Expr.lowerEach, bind_eq_ok_iff, Except.ok.injEq] at h
    obtain ⟨first, hfirst, others, hothers, rfl⟩ := h
    rw [Expr.identifiersOfList_cons, List.mem_append, not_or] at hnot
    exact List.forall_mem_cons.2
      ⟨Expr.hides_lower hr e hnot.1 hfirst, Expr.hides_lowerEach hr es hnot.2 hothers⟩

theorem Expr.hides_lowerElements (hr : Unspoken r) : ∀ (es : List Expr) {values : List Json},
    r ∉ Expr.identifiersOfList es → Expr.lowerElements es = .ok values →
    ∀ value ∈ values, value.Hides r
  | [], _, _, h => by
    cases h
    exact nofun
  | e :: es, values, hnot, h => by
    simp only [Expr.lowerElements_cons, bind_eq_ok_iff, Except.ok.injEq] at h
    obtain ⟨j, hj, others, hothers, rfl⟩ := h
    rw [Expr.identifiersOfList_cons, List.mem_append, not_or] at hnot
    have he := Expr.hides_lower hr e hnot.1 hj
    have hes := Expr.hides_lowerElements hr es hnot.2 hothers
    rw [List.forall_mem_append]
    refine ⟨?_, hes⟩
    rcases Expr.joined_cases hj with heq | heq
    · simpa [heq] using he
    · rw [heq, Json.hides_array_iff] at he
      exact he

theorem Expr.hides_lowerFields (hr : Unspoken r) : ∀ (fields : List (String × Expr))
    {before members : List (String × Json)}, (∀ m ∈ before, Json.HidesMember r m) →
    r ∉ Expr.identifiersOfFields fields → Expr.lowerFields before fields = .ok members →
    ∀ m ∈ members, Json.HidesMember r m
  | [], _, _, hbefore, _, h => by
    cases h
    exact hbefore
  | (key, e) :: fields, before, members, hbefore, hnot, h => by
    simp only [Expr.lowerFields, bind_eq_ok_iff] at h
    obtain ⟨value, hvalue, hmembers⟩ := h
    rw [Expr.identifiersOfFields_cons, List.mem_append, not_or] at hnot
    have he := Expr.hides_lower hr e hnot.1 hvalue
    refine Expr.hides_lowerFields hr fields ?_ hnot.2 hmembers
    intro m hm
    rcases Json.mem_of_mem_insert hm with rfl | hm
    · exact he.member (Json.not_isHeader_quoted key)
    · exact hbefore m hm

end

end

/-! ## Parts of statements -/

section

variable {scope : Scope} {r : String}

theorem Scope.Hides.not_mem_identifiers (hscope : scope.Hides r) (e : Expr) :
    r ∉ (e.mapNames scope).identifiers := by
  rw [Expr.identifiers, Expr.identifiers_mapNames, List.mem_map]
  rintro ⟨x, -, heq⟩
  exact hscope x heq.symm

theorem Scope.Hides.not_mem_identifiersOfList (hscope : scope.Hides r) (es : List Expr) :
    r ∉ Expr.identifiersOfList (Expr.mapNamesOfList scope es) := by
  rw [Expr.identifiersOfList, Expr.identifiers_mapNamesOfList, List.mem_map]
  rintro ⟨x, -, heq⟩
  exact hscope x heq.symm

theorem Expr.hides_lowerIn (hr : Unspoken r) (hscope : scope.Hides r) {e : Expr} {j : Json}
    (h : e.lowerIn scope = .ok j) : j.Hides r :=
  Expr.hides_lower hr _ (hscope.not_mem_identifiers e) h

theorem Expr.hides_lowerOptionIn (hr : Unspoken r) (hscope : scope.Hides r) {e : Option Expr}
    {value : Option Json} (h : Expr.lowerOptionIn scope e = .ok value) (key : String)
    (hkey : ¬ Json.IsHeader key) : ∀ m ∈ optionalMember key value, Json.HidesMember r m := by
  cases e with
  | none =>
    cases h
    exact List.forall_mem_nil _
  | some e =>
    simp only [Expr.lowerOptionIn, bind_eq_ok_iff, Except.ok.injEq] at h
    obtain ⟨j, hj, rfl⟩ := h
    have hj := (Expr.hides_lowerIn hr hscope hj).member hkey
    simpa [optionalMember] using hj

theorem Expr.lowerSchemeIn_eq (scheme : Option (List (String × Expr))) :
    Expr.lowerSchemeIn scope scheme = Expr.lowerOptionIn scope (scheme.map Expr.object) := by
  cases scheme <;> rfl

theorem Expr.hides_lowerCallIn (hr : Unspoken r) (hscope : scope.Hides r) {name : Expr}
    {args : List Expr} {j : Json} (h : name.lowerCallIn scope args = .ok j) : j.Hides r := by
  simp only [Expr.lowerCallIn, Expr.lowerList, bind_eq_ok_iff, Except.ok.injEq] at h
  obtain ⟨callee, hcallee, _, ⟨values, hvalues, rfl⟩, rfl⟩ := h
  have hname := Expr.hides_lowerIn hr hscope hcallee
  have hvalues := Expr.hides_lowerElements hr _ (hscope.not_mem_identifiersOfList args) hvalues
  have hargs : (Json.list values).Hides r :=
    Json.hides_operation (ne_of_isSymbol hr.symbol (by decide)) hvalues
  rw [Json.hides_object_iff]
  simp [hname.member, hargs.member, Json.IsHeader]

/-! ## Assignments -/

theorem Expr.namesOthers_lowerTargets (hscope : scope.Hides r) {es : List Expr}
    {targets : List Json}
    (h : Expr.lowerTargets (Expr.mapNamesOfList scope es) = .ok targets) :
    ∀ target ∈ targets, target.NamesOthers r := by
  induction es generalizing targets with
  | nil =>
    cases h
    exact List.forall_mem_nil _
  | cons e es ih =>
    simp only [Expr.mapNamesOfList, Expr.lowerTargets, bind_eq_ok_iff, Except.ok.injEq] at h
    obtain ⟨target, htarget, targets, htargets, rfl⟩ := h
    refine List.forall_mem_cons.2 ⟨?_, ih htargets⟩
    cases e with
    | name x =>
      cases htarget
      exact Json.namesOthers_quoted (hscope x)
    | _ => simp [Expr.mapNames, Expr.lowerTarget, bind_eq_ok_iff] at htarget

/-- What is assigned to are other names, in backticks. The root of an edit may be a text, which is
in backticks twice then. -/
theorem Target.hides_lower (hr : Unspoken r) (hscope : scope.Hides r) {target : Target}
    {value : Expr} {result : Json × Json}
    (h : (target.mapNames scope).lower (value.mapNames scope) = .ok result) :
    result.1.NamesOthers r ∧ result.2.Hides r := by
  cases target with
  | name x =>
    simp only [Target.mapNames, Target.lower, bind_eq_ok_iff, Except.ok.injEq] at h
    obtain ⟨v, hv, rfl⟩ := h
    exact ⟨Json.namesOthers_quoted (hscope x), Expr.hides_lowerIn hr hscope hv⟩
  | list elements =>
    simp only [Target.mapNames, Target.lower, bind_eq_ok_iff, Except.ok.injEq] at h
    obtain ⟨targets, htargets, v, hv, rfl⟩ := h
    have hnames := Expr.namesOthers_lowerTargets hscope htargets
    exact ⟨Json.namesOthers_targets hnames, Expr.hides_lowerIn hr hscope hv⟩
  | edit root keys =>
    obtain ⟨text, v, ks, hroot, hv, hks, rfl⟩ := Target.lower_edit_eq_ok_iff.1 h
    have htext := Json.hides_string_iff.1 (Expr.hides_lowerIn hr hscope hroot)
    have hvalue := Expr.hides_lowerIn hr hscope hv
    have hkeys := Expr.hides_lowerEach hr _ (hscope.not_mem_identifiersOfList keys) hks
    refine ⟨Json.namesOthers_quoted htext, ?_⟩
    apply Json.hides_operation (ne_quoted_of_isSymbol hr.symbol "edit")
    simpa [htext, hvalue] using hkeys

end

/-! ## Statements -/

section

variable {r : String}

theorem Json.hides_block {statements : List Json} (h : ∀ s ∈ statements, s.Hides r)
    {members : List (String × Json)} (hmembers : ∀ m ∈ members, Json.HidesMember r m) :
    (Json.block statements members).Hides r := by
  rw [Json.block, Json.hides_object_iff, List.forall_mem_cons]
  exact ⟨(Json.hides_array_iff.2 h).member (by decide), hmembers⟩

theorem Json.hides_fork {branches : List Json} (h : ∀ branch ∈ branches, branch.Hides r)
    {members : List (String × Json)} (hmembers : ∀ m ∈ members, Json.HidesMember r m) :
    (Json.fork branches members).Hides r := by
  rw [Json.fork, Json.hides_object_iff, List.forall_mem_cons]
  exact ⟨(Json.hides_array_iff.2 h).member (by decide), hmembers⟩

theorem Json.hides_awaiting {event : String} (h : r ≠ event) :
    ∀ m ∈ Json.awaiting event, Json.HidesMember r m := by
  have hevent : (Json.array [.string event]).Hides r := by simpa using h
  simpa [Json.awaiting] using hevent.member (by decide)

/-- The header of an assignment or a definition, and what follows it. -/
theorem Json.hides_header (hr : Unspoken r) {header : Json} (hheader : header.NamesOthers r)
    {key : String} (hkey : Json.IsHeader key) {value : Json} (hvalue : value.Hides r) :
    (Json.object [(key, header), ("val", value)]).Hides r := by
  rw [Json.hides_object_iff, List.forall_mem_cons]
  refine ⟨hheader.member hr.symbol hkey, ?_⟩
  simpa using hvalue.member (by decide)

theorem Json.hides_assignReturn (hr : Unspoken r) {x : String} (hx : r ≠ x) :
    (Json.assignReturn x).Hides r := by
  have hvalue : (Json.string Scope.returnName).Hides r :=
    Json.hides_string_iff.2 (hr.ne (by simp))
  have hset := Json.hides_header hr (Json.namesOthers_quoted hx) (.inl rfl) hvalue
  have hblock := Json.hides_block (List.forall_mem_singleton.2 hset) (List.forall_mem_nil _)
  exact Json.hides_fork (List.forall_mem_singleton.2 hblock)
    (Json.hides_awaiting (hr.ne (by simp)))

mutual

/-- A scope that hides a name keeps it out of all that is lowered in it. -/
theorem Statement.hides_lower (hr : Unspoken r) : ∀ (s : Statement) {scope : Scope} {j : Json},
    scope.Hides r → s.lower scope = .ok j → j.Hides r
  | .fork choice, scope, j, hscope, h => by
    rw [Statement.lower] at h
    exact Fork.hides_lower hr choice hscope (List.forall_mem_nil _) h
  | .input result choice, scope, j, hscope, h => by
    rw [Statement.lower] at h
    exact Fork.hides_lower hr choice (hscope.bind (hr.ne (by simp)) (scope result))
      (Json.hides_awaiting (hr.ne (by simp))) h
  | .await condition body, scope, j, hscope, h => by
    simp only [Statement.lower, bind_eq_ok_iff, Except.ok.injEq] at h
    obtain ⟨statements, hstatements, value, hvalue, rfl⟩ := h
    have hbody := Statement.hides_lowerEach hr body hscope hstatements
    have hcondition := Expr.hides_lowerIn hr hscope hvalue
    apply Json.hides_block hbody
    simpa using hcondition.member (by decide)
  | .once body, scope, j, hscope, h => by
    simp only [Statement.lower, bind_eq_ok_iff, Except.ok.injEq] at h
    obtain ⟨statements, hstatements, rfl⟩ := h
    have hbody := Statement.hides_lowerEach hr body hscope hstatements
    apply Json.hides_block hbody
    simpa using (Json.hides_bool true).member (by decide)
  | .perform verb value, scope, j, hscope, h => by
    simp only [Statement.lower, bind_eq_ok_iff, Except.ok.injEq] at h
    obtain ⟨v, hv, rfl⟩ := h
    have hvalue := Expr.hides_lowerIn hr hscope hv
    have htag : ¬ Json.IsHeader verb.tag := by cases verb <;> decide
    rw [Json.hides_object_iff]
    simpa using hvalue.member htag
  | .set target value, scope, j, hscope, h => by
    simp only [Statement.lower, Target.lowerAssignment, bind_eq_ok_iff, Except.ok.injEq] at h
    obtain ⟨⟨header, v⟩, hresult, rfl⟩ := h
    obtain ⟨hheader, hv⟩ := Target.hides_lower hr hscope hresult
    exact Json.hides_header hr hheader (.inl rfl) hv
  | .run name args none choice, scope, j, hscope, h => by
    simp only [Statement.lower, bind_eq_ok_iff, Except.ok.injEq] at h
    obtain ⟨call, hcall, rfl⟩ := h
    have hcall := Expr.hides_lowerCallIn hr hscope hcall
    exact Json.hides_block (by simp [hcall]) (List.forall_mem_nil _)
  | .run name args (some result) none, scope, j, hscope, h => by
    simp only [Statement.lower, bind_eq_ok_iff, Except.ok.injEq] at h
    obtain ⟨call, hcall, rfl⟩ := h
    have hcall := Expr.hides_lowerCallIn hr hscope hcall
    have hassign := Json.hides_assignReturn hr (hscope result)
    exact Json.hides_block (by simp [hcall, hassign]) (List.forall_mem_nil _)
  | .run name args (some result) (some choice), scope, j, hscope, h => by
    simp only [Statement.lower, bind_eq_ok_iff, Except.ok.injEq] at h
    obtain ⟨call, hcall, handler, hhandler, rfl⟩ := h
    have hcall := Expr.hides_lowerCallIn hr hscope hcall
    have hfork := Fork.hides_lower hr choice (hscope.bind (hr.ne (by simp)) (scope result))
      (Json.hides_awaiting (hr.ne (by simp))) hhandler
    exact Json.hides_block (by simp [hcall, hfork]) (List.forall_mem_nil _)
  | .use name imports, scope, j, hscope, h => by
    simp only [Statement.lower, bind_eq_ok_iff, Except.ok.injEq] at h
    obtain ⟨value, hvalue, rfl⟩ := h
    have hname := Expr.hides_lowerIn hr hscope hvalue
    have himports : (Json.array (imports.map Literal.lower)).Hides r := by
      simp [hr.hides_literal]
    rw [Json.hides_object_iff]
    simp [hname.member, himports.member, Json.IsHeader]
  | .define name params body, scope, j, hscope, h => by
    simp only [Statement.lower, bind_eq_ok_iff, Except.ok.injEq] at h
    obtain ⟨statements, hstatements, rfl⟩ := h
    have hbody := Statement.hides_lowerEach hr body hscope hstatements
    have hblock : (Json.block statements []).Hides r :=
      Json.hides_block hbody (List.forall_mem_nil _)
    have hnames : ∀ header ∈ (name :: params).map fun x => Json.string (quoted (scope x)),
        header.NamesOthers r :=
      List.forall_mem_map.2 fun x _ => Json.namesOthers_quoted (hscope x)
    exact Json.hides_header hr (Json.namesOthers_array hnames) (.inr rfl) hblock

theorem Fork.hides_lower (hr : Unspoken r) : ∀ (choice : Fork Statement) {scope : Scope}
    {members : List (String × Json)} {j : Json}, scope.Hides r →
    (∀ m ∈ members, Json.HidesMember r m) → Fork.lower scope members choice = .ok j → j.Hides r
  | ⟨scheme, branches⟩, scope, members, j, hscope, hmembers, h => by
    simp only [Fork.lower, bind_eq_ok_iff, Except.ok.injEq] at h
    obtain ⟨blocks, hblocks, value, hvalue, rfl⟩ := h
    have hbranches := Branch.hides_lowerEach hr branches hscope hblocks
    rw [Expr.lowerSchemeIn_eq] at hvalue
    have hscheme := Expr.hides_lowerOptionIn hr hscope hvalue "scheme" (by decide)
    exact Json.hides_fork hbranches (List.forall_mem_append.2 ⟨hscheme, hmembers⟩)

theorem Branch.hides_lowerEach (hr : Unspoken r) : ∀ (branches : List (Branch Statement))
    {scope : Scope} {values : List Json}, scope.Hides r →
    Branch.lowerEach scope branches = .ok values → ∀ value ∈ values, value.Hides r
  | [], _, _, _, h => by
    cases h
    exact List.forall_mem_nil _
  | ⟨condition, body⟩ :: branches, scope, values, hscope, h => by
    simp only [Branch.lowerEach, bind_eq_ok_iff, Except.ok.injEq] at h
    obtain ⟨statements, hstatements, value, hvalue, others, hothers, rfl⟩ := h
    have hbody := Statement.hides_lowerEach hr body hscope hstatements
    have hcondition := Expr.hides_lowerOptionIn hr hscope hvalue "if" (by decide)
    exact List.forall_mem_cons.2 ⟨Json.hides_block hbody hcondition,
      Branch.hides_lowerEach hr branches hscope hothers⟩

theorem Statement.hides_lowerEach (hr : Unspoken r) : ∀ (statements : List Statement)
    {scope : Scope} {values : List Json}, scope.Hides r →
    Statement.lowerEach scope statements = .ok values → ∀ value ∈ values, value.Hides r
  | [], _, _, _, h => by
    cases h
    exact List.forall_mem_nil _
  | s :: statements, scope, values, hscope, h => by
    simp only [Statement.lowerEach, bind_eq_ok_iff, Except.ok.injEq] at h
    obtain ⟨first, hfirst, others, hothers, rfl⟩ := h
    exact List.forall_mem_cons.2 ⟨Statement.hides_lower hr s hscope hfirst,
      Statement.hides_lowerEach hr statements hscope hothers⟩

end

end

/-- The name of a result stands nowhere in the fork that its branches are lowered to: neither as a
string, nor in backticks where something is assigned to or defined. -/
theorem Statement.hides_result (scope : Scope) (result : String)
    (hsymbol : isSymbol (scope result) = true)
    (hword : scope result ∉ ["_nlu", "_return", "get", "in", "input", "return"])
    (choice : Fork Statement) :
    (∀ j, (Statement.input result choice).lower scope = .ok j →
      scope result ∉ j.strings ∧ quoted (scope result) ∉ j.assigned) ∧
    ∀ name args j, (Statement.run name args (some result) (some choice)).lower scope = .ok j →
      ∃ call fork, name.lowerCallIn scope args = .ok call ∧ j = .block [call, fork] [] ∧
        scope result ∉ fork.strings ∧ quoted (scope result) ∉ fork.assigned := by
  have hr : Unspoken (scope result) := ⟨hsymbol, hword⟩
  refine ⟨?input, ?run⟩
  case input =>
    intro j h
    rw [Statement.lower] at h
    have hfork := Fork.hides_lower hr choice (Scope.hides_bind (hr.ne (by simp)))
      (Json.hides_awaiting (hr.ne (by simp))) h
    exact ⟨hfork.strings, hfork.assigned⟩
  case run =>
    intro name args j h
    simp only [Statement.lower, bind_eq_ok_iff, Except.ok.injEq] at h
    obtain ⟨call, hcall, fork, hhandler, rfl⟩ := h
    have hfork := Fork.hides_lower hr choice (Scope.hides_bind (hr.ne (by simp)))
      (Json.hides_awaiting (hr.ne (by simp))) hhandler
    exact ⟨call, fork, hcall, rfl, hfork.strings, hfork.assigned⟩

/-- Branches that compare the result to its own name as a text, assign to it, define a function of
its name, and bind it again. -/
def shadowing : Fork Statement :=
  ⟨some [("a", .name "a")],
    [⟨some (.binary .isIn (.name "a") (.array [.literal (.string "a")])),
      [.set (.edit (.name "a") [.name "a"]) (.member (.name "b") (.name "a")),
       .define "a" ["a", "b"] [.run (.name "a") [.name "b"] (some "a") none],
       .input "a" (.plain [⟨none, [.perform .act (.name "a")]⟩])]⟩]⟩

/-- The name of the result is left as a text only. -/
theorem Statement.hides_result_shadowing :
    (∃ j, (Statement.input "a" shadowing).lower id = .ok j ∧ "a" ∉ j.strings ∧
      quoted "a" ∉ j.assigned ∧ quoted "a" ∈ j.strings) ∧
    ∃ call fork, (Statement.run (.name "p") [.name "a"] (some "a") (some shadowing)).lower id =
      .ok (.block [call, fork] []) ∧ "a" ∈ call.strings ∧ "a" ∉ fork.strings ∧
      quoted "a" ∉ fork.assigned := by
  obtain ⟨hinput, hrun⟩ := Statement.hides_result id "a" (by decide) (by decide) shadowing
  refine ⟨?input, ?run⟩
  case input =>
    obtain ⟨hstrings, hassigned⟩ := hinput _ rfl
    exact ⟨_, rfl, hstrings, hassigned, by decide⟩
  case run =>
    obtain ⟨call, fork, hcall, hblock, hstrings, hassigned⟩ :=
      hrun (.name "p") [.name "a"] _ rfl
    cases hcall
    exact ⟨_, fork, congrArg Except.ok hblock, by decide, hstrings, hassigned⟩

end Dialogue
