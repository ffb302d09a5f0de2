import Dialogue.Proofs.Program.Supported

/-!
# References in programs

A name that is no word of the runtime comes into a program only where an identifier with that name
is lowered. So its references can be counted: those in the lowered expression, together with those
in arguments that a test overlooks, are those of the expression (`Expr.count_lower`). Nothing is
counted twice, and nothing else is lost as long as no object repeats a key.
-/

namespace Dialogue

open Reader (isSymbol)

/-! ## What is counted -/

mutual

/-- The strings in a JSON value, without the keys of its objects. -/
def Json.strings : Json → List String
  | .string text => [text]
  | .array elements => Json.stringsEach elements
  | .object members => Json.stringsOfMembers members
  | _ => []

/-- The strings in JSON values. -/
def Json.stringsEach : List Json → List String
  | [] => []
  | value :: values => value.strings ++ Json.stringsEach values

/-- The strings in the values of the members of an object. -/
def Json.stringsOfMembers : List (String × Json) → List String
  | [] => []
  | (_, value) :: members => value.strings ++ Json.stringsOfMembers members

end

/-- The names of the identifiers in a list of expressions. -/
def Expr.identifiersOfList (es : List Expr) : List String :=
  (Expr.nodesOfList es).filterMap Node.identifier?

/-- The names of the identifiers in the values of an object. -/
def Expr.identifiersOfFields (fields : List (String × Expr)) : List String :=
  (Expr.nodesOfFields fields).filterMap Node.identifier?

mutual

/-- The names of the identifiers that lowering never comes to: those in all arguments of a test but
the first. -/
def Expr.overlooked : Expr → List String
  | .binary _ left right => left.overlooked ++ right.overlooked
  | .not operand => operand.overlooked
  | .call callee args =>
    if callee.isName "exists" then Expr.overlookedAfterFirst args
    else callee.overlooked ++ Expr.overlookedEach args
  | .member target property => target.overlooked ++ property.overlooked
  | .name _ => []
  | .literal _ => []
  | .array elements => Expr.overlookedEach elements
  | .object fields => Expr.overlookedOfFields fields
  | .spread elements => Expr.overlookedEach elements

/-- The names that a test with the given arguments overlooks. -/
def Expr.overlookedAfterFirst : List Expr → List String
  | [] => []
  | e :: es => e.overlooked ++ Expr.identifiersOfList es

/-- The names that are overlooked in expressions. -/
def Expr.overlookedEach : List Expr → List String
  | [] => []
  | e :: es => e.overlooked ++ Expr.overlookedEach es

/-- The names that are overlooked in the values of an object. -/
def Expr.overlookedOfFields : List (String × Expr) → List String
  | [] => []
  | (_, e) :: fields => e.overlooked ++ Expr.overlookedOfFields fields

end

/-- A name that lowering does not use for anything of its own: in a program, it is a reference. -/
def Traceable (x : String) : Prop :=
  isSymbol x = true ∧ x ∉ ["get", "in", "null", "exists", Preference.callName]

/-- No object among the nodes repeats a key. -/
def DistinctKeys (nodes : List Node) : Prop :=
  ∀ fields, Node.expression (.object fields) ∈ nodes → (fields.map Prod.fst).Nodup

theorem distinctKeys_append {nodes nodes' : List Node} :
    DistinctKeys (nodes ++ nodes') ↔ DistinctKeys nodes ∧ DistinctKeys nodes' := by
  simp only [DistinctKeys, List.mem_append, or_imp, forall_and]

theorem DistinctKeys.of_cons {node : Node} {nodes : List Node} (h : DistinctKeys (node :: nodes)) :
    DistinctKeys nodes := fun fields hfields => h fields (List.mem_cons_of_mem node hfields)

theorem DistinctKeys.of_object {fields : List (String × Expr)}
    (h : DistinctKeys (Expr.object fields).nodes) :
    (fields.map Prod.fst).Nodup ∧ DistinctKeys (Expr.nodesOfFields fields) := by
  rw [Expr.nodes] at h
  exact ⟨h fields List.mem_cons_self, h.of_cons⟩

theorem Json.mem_stringsOfMembers {x : String} {members : List (String × Json)} :
    x ∈ Json.stringsOfMembers members ↔ ∃ m ∈ members, x ∈ m.2.strings := by
  induction members with
  | nil => simp [Json.stringsOfMembers]
  | cons m members ih => simp [Json.stringsOfMembers, ih]

theorem Json.not_mem_stringsOfMembers_insert {x : String} {members : List (String × Json)}
    (hmembers : x ∉ Json.stringsOfMembers members) {value : Json} (hvalue : x ∉ value.strings)
    (key : String) : x ∉ Json.stringsOfMembers (Json.insert key value members) := by
  rw [Json.mem_stringsOfMembers] at hmembers ⊢
  rintro ⟨m, hm, hx⟩
  rcases Json.mem_of_mem_insert hm with rfl | hm
  · exact hvalue hx
  · exact hmembers ⟨m, hm, hx⟩

/-! ## Identifiers -/

namespace Expr

theorem identifiers_binary (op : Operator) (left right : Expr) :
    (binary op left right).identifiers = left.identifiers ++ right.identifiers := by
  simp [identifiers, nodes, List.filterMap_cons, Node.identifier?]

theorem identifiers_call (callee : Expr) (args : List Expr) :
    (call callee args).identifiers = callee.identifiers ++ identifiersOfList args := by
  simp [identifiers, identifiersOfList, nodes, List.filterMap_cons, Node.identifier?]

theorem identifiers_member (target property : Expr) :
    (member target property).identifiers = target.identifiers ++ property.identifiers := by
  simp [identifiers, nodes, List.filterMap_cons, Node.identifier?]

theorem identifiersOfList_cons (e : Expr) (es : List Expr) :
    identifiersOfList (e :: es) = e.identifiers ++ identifiersOfList es := by
  simp [identifiersOfList, identifiers, nodesOfList]

theorem identifiersOfFields_cons (key : String) (e : Expr) (fields : List (String × Expr)) :
    identifiersOfFields ((key, e) :: fields) = e.identifiers ++ identifiersOfFields fields := by
  simp [identifiersOfFields, identifiers, nodesOfFields]

end Expr

/-! ## Words of the runtime -/

section

variable {x : String} (h : isSymbol x = true)

include h

theorem ne_of_isSymbol {mark : String} (hmark : isSymbol mark = false) : x ≠ mark := by
  rintro rfl
  rw [h] at hmark
  cases hmark

theorem ne_quoted_of_isSymbol (text : String) : x ≠ quoted text := by
  rintro rfl
  have hnone := unquoted?_of_isSymbol h
  rw [unquoted?_quoted] at hnone
  cases hnone

theorem ne_symbol_of_isSymbol (hin : x ≠ "in") (op : Operator) : x ≠ op.symbol := by
  cases op with
  | isIn => exact hin
  | _ => exact ne_of_isSymbol h (by decide)

theorem not_mem_strings_literal (value : Literal) : x ∉ value.lower.strings := by
  cases value with
  | string s => simpa [Literal.lower, Json.strings] using ne_quoted_of_isSymbol h s
  | number v =>
    rcases v.lower_cases with hv | ⟨n, hv⟩ | ⟨y, hv⟩ <;> simp [Literal.lower, hv, Json.strings]
  | boolean b => simp [Literal.lower, Json.strings]

theorem not_mem_strings_fields (fields : Preference.Fields) : x ∉ fields.lower.strings := by
  rw [Preference.Fields.lower, Json.strings]
  suffices hfold : ∀ members, x ∉ Json.stringsOfMembers members →
      x ∉ Json.stringsOfMembers (fields.foldl
        (fun members field => Json.insert (quoted field.1) field.2.lower members) members) from
    hfold [] List.not_mem_nil
  induction fields with
  | nil => exact fun members hmembers => hmembers
  | cons field fields ih =>
    intro members hmembers
    apply ih
    exact Json.not_mem_stringsOfMembers_insert hmembers (not_mem_strings_literal h field.2) _

theorem not_mem_strings_expansion (expansion : Preference.Expansion) :
    x ∉ expansion.lower.strings := by
  have hempty : x ≠ "" := ne_of_isSymbol h (by decide)
  cases expansion <;>
    simp [Preference.Expansion.lower, Preference.Expansion.pairs, Json.list, Json.strings,
      Json.stringsEach, not_mem_strings_fields h, hempty]

end

theorem Traceable.ne_of_mem {x : String} (h : Traceable x) {word : String}
    (hword : word ∈ ["get", "in", "null", "exists", Preference.callName]) : x ≠ word := by
  rintro rfl
  exact h.2 hword

/-- A name that means something to lowering is no reference. -/
theorem Traceable.count_callee {x : String} (h : Traceable x) {word : String}
    (hword : word ∈ ["get", "in", "null", "exists", Preference.callName]) {callee : Expr}
    (hcallee : callee.isName word = true) : callee.identifiers.count x = 0 := by
  rw [Expr.isName_eq_true_iff.1 hcallee]
  exact List.count_eq_zero_of_not_mem fun hmem => h.ne_of_mem hword (List.mem_singleton.1 hmem)

/-! ## Preferences -/

namespace Preference

theorem identifiers_of_isConstant {fields : List (String × Expr)}
    (h : ∀ field ∈ fields, IsConstant field.2) :
    Expr.identifiersOfFields fields = [] ∧ Expr.overlookedOfFields fields = [] := by
  induction fields with
  | nil => exact ⟨rfl, rfl⟩
  | cons field fields ih =>
    obtain ⟨hfield, hothers⟩ := List.forall_mem_cons.1 h
    obtain ⟨key, e⟩ := field
    rcases hfield with ⟨v, rfl⟩ | ⟨b, rfl⟩ <;> exact ih hothers

theorem identifiers_of_isString {es : List Expr} (h : ∀ e ∈ es, e.IsString) :
    Expr.identifiersOfList es = [] ∧ Expr.overlookedEach es = [] := by
  induction es with
  | nil => exact ⟨rfl, rfl⟩
  | cons e es ih =>
    obtain ⟨⟨text, rfl⟩, hothers⟩ := List.forall_mem_cons.1 h
    exact ih hothers

/-- What states a preference has no identifiers. -/
theorem Stated.identifiers_eq_nil {args : List Expr} (h : Stated args) :
    Expr.identifiersOfList args = [] ∧ Expr.overlookedEach args = [] := by
  obtain ⟨fields, hconstants, hargs⟩ := h
  obtain ⟨hidentifiers, hoverlooked⟩ := identifiers_of_isConstant hconstants
  have hobject : (Expr.object fields).identifiers = [] := hidentifiers
  rcases hargs with rfl | ⟨names, rfl, hnames⟩
  · simp only [Expr.identifiersOfList_cons, Expr.overlookedEach, Expr.overlooked, hobject,
      hoverlooked]
    exact ⟨rfl, rfl⟩
  · have hlist : (Expr.array names).identifiers = [] := (identifiers_of_isString hnames).1
    simp only [Expr.identifiersOfList_cons, Expr.overlookedEach, Expr.overlooked, hobject,
      hoverlooked, hlist, (identifiers_of_isString hnames).2]
    exact ⟨rfl, rfl⟩

end Preference

/-! ## Counting -/

theorem Json.stringsEach_append (values values' : List Json) :
    Json.stringsEach (values ++ values') = Json.stringsEach values ++ Json.stringsEach values' := by
  induction values with
  | nil => rfl
  | cons value values ih => simp [Json.stringsEach, ih]

theorem Json.stringsOfMembers_append (members members' : List (String × Json)) :
    Json.stringsOfMembers (members ++ members') =
      Json.stringsOfMembers members ++ Json.stringsOfMembers members' := by
  induction members with
  | nil => rfl
  | cons member members ih => simp [Json.stringsOfMembers, ih]

section

variable {x : String}

/-- The head of an operation is not counted. -/
theorem Json.count_operation {head : String} (h : x ≠ head) (operands : List Json) :
    (Json.array (.string head :: operands)).strings.count x =
      (Json.stringsEach operands).count x := by
  simp [Json.strings, Json.stringsEach, Ne.symm h]

mutual

/-- The references to a name in an expression are those in what it is lowered to, and those that are
overlooked. -/
theorem Expr.count_lower (hx : Traceable x) : ∀ (e : Expr) {j : Json}, DistinctKeys e.nodes →
    e.lower = .ok j → j.strings.count x + e.overlooked.count x = e.identifiers.count x
  | .binary op left right, j, hkeys, h => by
    simp only [Expr.lower, bind_eq_ok_iff, Except.ok.injEq] at h
    obtain ⟨l, hl, r, hr, rfl⟩ := h
    obtain ⟨hleftKeys, hrightKeys⟩ := distinctKeys_append.1 hkeys.of_cons
    have hleft := Expr.count_lower hx left hleftKeys hl
    have hright := Expr.count_lower hx right hrightKeys hr
    have hop := ne_symbol_of_isSymbol hx.1 (hx.ne_of_mem (by simp)) op
    rw [Json.count_operation hop, Expr.identifiers_binary]
    simp only [Json.stringsEach, List.append_nil, Expr.overlooked, List.count_append]
    omega
  | .not operand, j, hkeys, h => by
    simp only [Expr.lower, bind_eq_ok_iff, Except.ok.injEq] at h
    obtain ⟨value, hvalue, rfl⟩ := h
    have hoperand := Expr.count_lower hx operand hkeys.of_cons hvalue
    rw [Json.count_operation (ne_of_isSymbol hx.1 (by decide))]
    simp only [Json.stringsEach, List.append_nil]
    exact hoperand
  | .call callee args, j, hkeys, h => by
    obtain ⟨hcalleeKeys, hargsKeys⟩ := distinctKeys_append.1 hkeys.of_cons
    rw [Expr.lower] at h
    rw [Expr.overlooked, Expr.identifiers_call, List.count_append]
    split at h
    · rename_i hexists
      rw [if_pos hexists, hx.count_callee (by simp) hexists, Nat.zero_add]
      exact Expr.count_lowerExists hx args hargsKeys h
    rename_i hexists
    rw [if_neg hexists, List.count_append]
    split at h
    · rename_i hname
      simp only [bind_eq_ok_iff, Except.ok.injEq] at h
      obtain ⟨expansion, hexpand, rfl⟩ := h
      obtain ⟨hnone, hseen⟩ :=
        ((Preference.exists_expand_iff args).1 ⟨expansion, hexpand⟩).identifiers_eq_nil
      rw [List.count_eq_zero_of_not_mem (not_mem_strings_expansion hx.1 expansion), hnone, hseen,
        hx.count_callee (by simp) hname, Expr.isName_eq_true_iff.1 hname]
      rfl
    · simp only [bind_eq_ok_iff, Except.ok.injEq] at h
      obtain ⟨head, hhead, values, hvalues, rfl⟩ := h
      have hcallee := Expr.count_lower hx callee hcalleeKeys hhead
      have hargs := Expr.count_lowerEach hx args hargsKeys hvalues
      simp only [Json.strings, Json.stringsEach, List.count_append]
      omega
  | .member target property, j, hkeys, h => by
    simp only [Expr.lower, bind_eq_ok_iff, Except.ok.injEq] at h
    obtain ⟨key, hkey, root, hroot, rfl⟩ := h
    obtain ⟨htargetKeys, hpropertyKeys⟩ := distinctKeys_append.1 hkeys.of_cons
    have htarget := Expr.count_lower hx target htargetKeys hroot
    have hproperty := Expr.count_lower hx property hpropertyKeys hkey
    rw [Json.count_operation (hx.ne_of_mem (by simp)), Expr.identifiers_member]
    simp only [Json.stringsEach, List.append_nil, Expr.overlooked, List.count_append]
    omega
  | .name y, j, hkeys, h => by
    cases h
    rw [lowerName]
    split
    · rename_i hnull
      have hzero : (Expr.name y).identifiers.count x = 0 :=
        hx.count_callee (by simp) (decide_eq_true hnull)
      rw [hzero]
      rfl
    · rfl
  | .literal value, j, hkeys, h => by
    cases h
    rw [List.count_eq_zero_of_not_mem (not_mem_strings_literal hx.1 value)]
    rfl
  | .array elements, j, hkeys, h => by
    simp only [Expr.lower, bind_eq_ok_iff, Except.ok.injEq] at h
    obtain ⟨values, hvalues, rfl⟩ := h
    rw [Json.list, Json.count_operation (ne_of_isSymbol hx.1 (by decide))]
    exact Expr.count_lowerElements hx elements hkeys.of_cons hvalues
  | .object fields, j, hkeys, h => by
    simp only [Expr.lower, bind_eq_ok_iff, Except.ok.injEq] at h
    obtain ⟨members, hmembers, rfl⟩ := h
    obtain ⟨hdistinct, hfieldKeys⟩ := hkeys.of_object
    have hfields := Expr.count_lowerFields hx fields [] hdistinct nofun hfieldKeys hmembers
    rw [Json.stringsOfMembers, List.count_nil, Nat.zero_add] at hfields
    exact hfields
  | .spread elements, j, hkeys, h => by
    simp only [Expr.lower, bind_eq_ok_iff, Except.ok.injEq] at h
    obtain ⟨values, hvalues, rfl⟩ := h
    exact Expr.count_lowerEach hx elements hkeys.of_cons hvalues

theorem Expr.count_lowerExists (hx : Traceable x) : ∀ (args : List Expr) {j : Json},
    DistinctKeys (Expr.nodesOfList args) → Expr.lowerExists args = .ok j →
    j.strings.count x + (Expr.overlookedAfterFirst args).count x =
      (Expr.identifiersOfList args).count x
  | [], _, _, h => by cases h
  | e :: es, j, hkeys, h => by
    simp only [Expr.lowerExists, bind_eq_ok_iff, Except.ok.injEq] at h
    obtain ⟨value, hvalue, rfl⟩ := h
    have he := Expr.count_lower hx e (distinctKeys_append.1 hkeys).1 hvalue
    rw [Json.count_operation (ne_of_isSymbol hx.1 (by decide)), Expr.identifiersOfList_cons]
    simp only [Json.stringsEach, List.append_nil, Expr.overlookedAfterFirst, List.count_append]
    omega

theorem Expr.count_lowerEach (hx : Traceable x) : ∀ (es : List Expr) {values : List Json},
    DistinctKeys (Expr.nodesOfList es) → Expr.lowerEach es = .ok values →
    (Json.stringsEach values).count x + (Expr.overlookedEach es).count x =
      (Expr.identifiersOfList es).count x
  | [], _, _, h => by
    cases h
    rfl
  | e :: es, values, hkeys, h => by
    simp only [Expr.lowerEach, bind_eq_ok_iff, Except.ok.injEq] at h
    obtain ⟨first, hfirst, others, hothers, rfl⟩ := h
    obtain ⟨heKeys, hesKeys⟩ := distinctKeys_append.1 hkeys
    have he := Expr.count_lower hx e heKeys hfirst
    have hes := Expr.count_lowerEach hx es hesKeys hothers
    rw [Expr.identifiersOfList_cons]
    simp only [Json.stringsEach, Expr.overlookedEach, List.count_append]
    omega

theorem Expr.count_lowerElements (hx : Traceable x) : ∀ (es : List Expr) {values : List Json},
    DistinctKeys (Expr.nodesOfList es) → Expr.lowerElements es = .ok values →
    (Json.stringsEach values).count x + (Expr.overlookedEach es).count x =
      (Expr.identifiersOfList es).count x
  | [], _, _, h => by
    cases h
    rfl
  | e :: es, values, hkeys, h => by
    obtain ⟨heKeys, hesKeys⟩ := distinctKeys_append.1 hkeys
    simp only [Expr.lowerElements_cons, bind_eq_ok_iff, Except.ok.injEq] at h
    obtain ⟨j, hj, others, hothers, rfl⟩ := h
    have he := Expr.count_lower hx e heKeys hj
    have hes := Expr.count_lowerElements hx es hesKeys hothers
    -- whether an element joins the list or stands in it alone, its strings are the same
    have hstrings : Json.stringsEach (e.joined j) = j.strings := by
      rcases Expr.joined_cases hj with heq | heq
      · rw [heq, Json.stringsEach, Json.stringsEach, List.append_nil]
      · rw [heq, Json.strings, ← heq]
    rw [Expr.identifiersOfList_cons, Json.stringsEach_append, hstrings]
    simp only [Expr.overlookedEach, List.count_append]
    omega

theorem Expr.count_lowerFields (hx : Traceable x) : ∀ (fields : List (String × Expr))
    (before : List (String × Json)) {members : List (String × Json)},
    (fields.map Prod.fst).Nodup → (∀ field ∈ fields, quoted field.1 ∉ before.map Prod.fst) →
    DistinctKeys (Expr.nodesOfFields fields) → Expr.lowerFields before fields = .ok members →
    (Json.stringsOfMembers members).count x + (Expr.overlookedOfFields fields).count x =
      (Json.stringsOfMembers before).count x + (Expr.identifiersOfFields fields).count x
  | [], before, members, _, _, _, h => by
    cases h
    rfl
  | (key, e) :: fields, before, members, hdistinct, hbefore, hkeys, h => by
    simp only [Expr.lowerFields, bind_eq_ok_iff] at h
    obtain ⟨value, hvalue, hmembers⟩ := h
    obtain ⟨hkey, hothers⟩ := List.nodup_cons.1 hdistinct
    obtain ⟨hfresh, hfreshOthers⟩ := List.forall_mem_cons.1 hbefore
    obtain ⟨heKeys, hfieldsKeys⟩ := distinctKeys_append.1 hkeys
    -- a new key comes last, so no value that was counted before is replaced
    rw [Json.insert_of_not_mem hfresh] at hmembers
    have he := Expr.count_lower hx e heKeys hvalue
    have hfields := Expr.count_lowerFields hx fields _ hothers
      (Json.fresh_append hkey hfreshOthers value) hfieldsKeys hmembers
    rw [Json.stringsOfMembers_append, List.count_append] at hfields
    rw [Expr.identifiersOfFields_cons]
    simp only [Json.stringsOfMembers, List.append_nil, Expr.overlookedOfFields,
      List.count_append] at hfields ⊢
    omega

end

end

/-- What becomes of references: nothing is counted twice, and a name keeps all its references
exactly if none of them is overlooked. -/
theorem Expr.count_strings_lower (e : Expr)
    (hkeys : ∀ fields, Node.expression (.object fields) ∈ e.nodes → (fields.map Prod.fst).Nodup)
    {x : String} (hx : isSymbol x = true)
    (hword : x ∉ ["get", "in", "null", "exists", "pref"]) {j : Json} (h : e.lower = .ok j) :
    j.strings.count x + e.overlooked.count x = e.identifiers.count x ∧
      (j.strings.count x = e.identifiers.count x ↔ x ∉ e.overlooked) := by
  have hcount := Expr.count_lower ⟨hx, hword⟩ e hkeys h
  refine ⟨hcount, ?_⟩
  rw [← List.count_eq_zero]
  omega

/-- A name in a call, in an object and twice in a test, once of them overlooked. -/
theorem Expr.count_strings_lower_test :
    let e := Expr.call (.name "f") [.object [("k", .name "a")],
      .call (.name "exists") [.name "a", .name "a"]]
    ∃ j, e.lower = .ok j ∧ j.strings.count "a" + 1 = e.identifiers.count "a" := by
  intro e
  refine ⟨_, rfl, ?_⟩
  have hkeys : ∀ fields, Node.expression (.object fields) ∈ e.nodes →
      (fields.map Prod.fst).Nodup := by
    intro fields hfields
    simp [e, Expr.nodes, Expr.nodesOfList, Expr.nodesOfFields] at hfields
    simp [hfields]
  exact (Expr.count_strings_lower e hkeys (x := "a") (by decide) (by decide) rfl).1

/-- The reference to `b` in the second argument of a test is lost. -/
theorem Expr.count_strings_lower_fails :
    ¬ ∀ e : Expr, (∀ fields, Node.expression (.object fields) ∈ e.nodes →
      (fields.map Prod.fst).Nodup) → ∀ x, isSymbol x = true →
      x ∉ ["get", "in", "null", "exists", "pref"] → ∀ j, e.lower = .ok j →
      j.strings.count x = e.identifiers.count x := by
  intro h
  have hkeys : ∀ fields, Node.expression (.object fields) ∈
      (Expr.call (.name "exists") [.name "a", .name "b"]).nodes →
      (fields.map Prod.fst).Nodup := by
    simp [Expr.nodes, Expr.nodesOfList]
  have hlost := h _ hkeys "b" (by decide) (by decide) (.array [.string "?", .string "a"]) rfl
  revert hlost
  decide

end Dialogue
