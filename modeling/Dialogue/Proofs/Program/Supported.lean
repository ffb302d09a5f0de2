import Dialogue.Proofs.Program.Compiled
import Dialogue.Proofs.Program.Faithful
import Dialogue.Proofs.Scope.Context

/-!
# Which scripts are lowered

Lowering can fail at three places only: a test without an argument, a preference that is not made of
constants, and an assignment to something that is neither a name nor a place in the value of a name
or of a text. `Statement.Supported` says of the parts that a statement has of its own that none of
them fails so. It looks at the source alone, with no renaming of results.

A script is lowered exactly if all its statements, at every depth, are supported
(`Script.lower_eq_ok_iff`). Renaming makes no difference to that as long as no result is called like
something built in: then every scope that lowering comes to is `Scope.Transparent`.
-/

namespace Dialogue

/-! ## What is supported -/

/-- The names that lowering takes for something built in. -/
def Builtin (x : String) : Prop := x = "exists" ∨ x = Preference.callName ∨ x = "null"

/-- Whether an expression is a number. -/
def Expr.isNumeral : Expr → Bool
  | .literal (.number _) => true
  | _ => false

namespace Preference

/-- A value that a preference can nudge: a number or a switch. -/
def IsConstant (e : Expr) : Prop :=
  (∃ v, e = .literal (.number v)) ∨ ∃ b, e = .literal (.boolean b)

/-- Arguments that state a preference: an object of constants, and maybe a list of strings. -/
def Stated (args : List Expr) : Prop :=
  ∃ fields : List (String × Expr), (∀ field ∈ fields, IsConstant field.2) ∧
    (args = [.object fields] ∨
      ∃ names, args = [.object fields, .array names] ∧ ∀ e ∈ names, e.IsString)

end Preference

mutual

/-- An expression that can be lowered. A test needs its first argument and looks at no other one. -/
def Expr.Supported : Expr → Prop
  | .binary _ left right => left.Supported ∧ right.Supported
  | .not operand => operand.Supported
  | .call callee args =>
    if callee.isName "exists" then Expr.SupportedFirst args
    else if callee.isName Preference.callName then Preference.Stated args
    else callee.Supported ∧ Expr.SupportedEach args
  | .member target property => target.Supported ∧ property.Supported
  | .name _ => True
  | .literal _ => True
  | .array elements => Expr.SupportedEach elements
  | .object fields => Expr.SupportedFields fields
  | .spread elements => Expr.SupportedEach elements

/-- A list of expressions of which the first exists and can be lowered. -/
def Expr.SupportedFirst : List Expr → Prop
  | [] => False
  | e :: _ => e.Supported

/-- Expressions that can be lowered. -/
def Expr.SupportedEach : List Expr → Prop
  | [] => True
  | e :: es => e.Supported ∧ Expr.SupportedEach es

/-- Fields whose values can be lowered. -/
def Expr.SupportedFields : List (String × Expr) → Prop
  | [] => True
  | (_, e) :: fields => e.Supported ∧ Expr.SupportedFields fields

end

/-- A root whose value can be edited in place: a name other than `null`, or a text. -/
def Expr.IsRoot (e : Expr) : Prop := (∃ x, x ≠ "null" ∧ e = .name x) ∨ e.IsString

/-- A target that can be assigned to. -/
def Target.Supported : Target → Prop
  | .name _ => True
  | .list elements => ∀ e ∈ elements, ∃ x, e = .name x
  | .edit root keys => root.IsRoot ∧ Expr.SupportedEach keys

/-- A fork whose data and conditions can be lowered. -/
def Fork.Supported (choice : Fork Statement) : Prop :=
  (∀ fields ∈ choice.scheme, Expr.SupportedFields fields) ∧
    ∀ branch ∈ choice.branches, ∀ e ∈ branch.condition, e.Supported

/-- A statement of which every part can be lowered, apart from the statements inside it. -/
def Statement.Supported : Statement → Prop
  | .fork choice => choice.Supported
  | .input _ choice => choice.Supported
  | .await condition _ => condition.Supported
  | .perform _ value => value.Supported
  | .set target value => target.Supported ∧ value.Supported
  | .run name args _ choice =>
    name.Supported ∧ Expr.SupportedEach args ∧ ∀ fork ∈ choice, fork.Supported
  | .use name _ => name.Supported
  | .once _ | .define _ _ _ => True

/-- A statement that does not bind a result under a built-in name, and that has a result if it is a
`run` with branches. -/
def Statement.Regular : Statement → Prop
  | .input result _ => ¬ Builtin result
  | .run _ _ result (some _) => ∃ x, result = some x ∧ ¬ Builtin x
  | _ => True

/-! ## Steps that succeed -/

theorem exists_bind_eq_ok_iff {ε α β : Type} {step : Except ε α} {next : α → Except ε β} :
    (∃ result, (step >>= next) = .ok result) ↔
      ∃ value, step = .ok value ∧ ∃ result, next value = .ok result := by
  simp only [bind_eq_ok_iff]
  constructor
  · rintro ⟨result, value, hstep, hnext⟩
    exact ⟨value, hstep, result, hnext⟩
  · rintro ⟨value, hstep, result, hnext⟩
    exact ⟨result, value, hstep, hnext⟩

/-! ## Preferences -/

namespace Preference

theorem exists_strings_iff (es : List Expr) :
    (∃ names, strings es = .ok names) ↔ ∀ e ∈ es, e.IsString := by
  induction es with
  | nil => simp [strings]
  | cons e es ih =>
    rw [List.forall_mem_cons, ← ih]
    cases e with
    | literal value =>
      cases value with
      | string s => simp [strings, exists_bind_eq_ok_iff, Expr.IsString]
      | _ => simp [strings, Expr.IsString]
    | _ => simp [strings, Expr.IsString]

theorem exists_constants_iff (fields : List (String × Expr)) :
    (∃ found, constants fields = .ok found) ↔ ∀ field ∈ fields, IsConstant field.2 := by
  induction fields with
  | nil => simp [constants]
  | cons field fields ih =>
    obtain ⟨key, e⟩ := field
    rw [List.forall_mem_cons, ← ih]
    cases e with
    | literal value =>
      cases value with
      | string s => simp [constants, IsConstant]
      | _ => simp [constants, exists_bind_eq_ok_iff, IsConstant]
    | _ => simp [constants, IsConstant]

/-- The constants of an object are its fields as they stand. -/
theorem eq_map_of_constants {fields : List (String × Expr)} {found : Fields}
    (h : constants fields = .ok found) :
    fields = found.map fun field => (field.1, .literal field.2) := by
  induction fields generalizing found with
  | nil =>
    cases h
    rfl
  | cons field fields ih =>
    obtain ⟨key, e⟩ := field
    cases e with
    | literal value =>
      cases value with
      | string s => cases h
      | number v =>
        obtain ⟨others, hothers, heq⟩ := bind_eq_ok_iff.1 h
        cases heq
        rw [ih hothers, List.map_cons]
      | boolean b =>
        obtain ⟨others, hothers, heq⟩ := bind_eq_ok_iff.1 h
        cases heq
        rw [ih hothers, List.map_cons]
    | _ => cases h

theorem any_isNumeral_of_constants {fields : List (String × Expr)} {found : Fields}
    (h : constants fields = .ok found) :
    fields.any (·.2.isNumeral) = found.any (isNumber ·.2) := by
  rw [eq_map_of_constants h, List.any_map]
  congr 1
  funext field
  cases hvalue : field.2 <;> simp [hvalue, Expr.isNumeral, isNumber]

theorem exists_nudgedNames_iff (fields : List (String × Expr)) (list : Expr) :
    (∃ names, nudgedNames fields (some list) = .ok names) ↔
      ∃ es, list = .array es ∧ ∀ e ∈ es, e.IsString := by
  cases list with
  | array es => simp [nudgedNames, exists_strings_iff]
  | _ => simp [nudgedNames]

theorem arguments_eq_ok_iff (args : List Expr) (fields : List (String × Expr))
    (list : Option Expr) :
    arguments args = .ok (fields, list) ↔ args = .object fields :: list.toList := by
  unfold arguments
  split
  · cases list with
    | none => simp
    | some e => simp
  · cases list with
    | none => simp
    | some e => simp
  · rename_i hone htwo
    have hfail : (if args.length ≤ 2 then Except.error Problem.preferenceWithoutObject
        else .error (.preferenceArgumentCount args.length)) ≠ .ok (fields, list) := by
      intro h
      split at h <;> cases h
    constructor
    · exact fun h => absurd h hfail
    · rintro rfl
      cases list with
      | none => exact absurd rfl (hone fields)
      | some e => exact absurd rfl (htwo fields e)

/-- The expansion of constants of which the given ones are nudged. -/
def expansionOf (names : List String) (found : Fields) : Expansion :=
  if found.any (isNumber ·.2) then .spread found (nudge names .up found) (nudge names .down found)
  else .pair found (nudge names .up found)

theorem expand_eq_ok_iff (args : List Expr) (expansion : Expansion) :
    expand args = .ok expansion ↔
      ∃ fields list names found, args = .object fields :: list.toList ∧
        nudgedNames fields list = .ok names ∧ constants fields = .ok found ∧
        expansion = expansionOf names found := by
  have hlast (names : List String) (found : Fields) :
      (if found.any (isNumber ·.2) then
        .ok (.spread found (nudge names .up found) (nudge names .down found))
      else .ok (.pair found (nudge names .up found)) : Except Problem Expansion) =
        .ok (expansionOf names found) := by
    unfold expansionOf
    split <;> rfl
  simp only [expand, bind_eq_ok_iff, Prod.exists, arguments_eq_ok_iff, hlast, Except.ok.injEq]
  constructor
  · rintro ⟨fields, list, hargs, names, hnames, found, hfound, heq⟩
    exact ⟨fields, list, names, found, hargs, hnames, hfound, heq.symm⟩
  · rintro ⟨fields, list, names, found, hargs, hnames, hfound, heq⟩
    exact ⟨fields, list, hargs, names, hnames, found, hfound, heq.symm⟩

/-- A preference can be expanded if it is stated with an object and a list of the right kind. -/
theorem exists_expand_iff (args : List Expr) :
    (∃ expansion, expand args = .ok expansion) ↔ Stated args := by
  simp only [expand_eq_ok_iff]
  constructor
  · rintro ⟨expansion, fields, list, names, found, rfl, hnames, hfound, -⟩
    have hconstants := (exists_constants_iff fields).1 ⟨found, hfound⟩
    cases list with
    | none => exact ⟨fields, hconstants, Or.inl rfl⟩
    | some list =>
      obtain ⟨es, rfl, hes⟩ := (exists_nudgedNames_iff fields list).1 ⟨names, hnames⟩
      exact ⟨fields, hconstants, Or.inr ⟨es, rfl, hes⟩⟩
  · rintro ⟨fields, hconstants, hargs⟩
    obtain ⟨found, hfound⟩ := (exists_constants_iff fields).2 hconstants
    rcases hargs with rfl | ⟨es, rfl, hes⟩
    · exact ⟨_, fields, none, _, found, rfl, rfl, hfound, rfl⟩
    · obtain ⟨names, hnames⟩ := (exists_nudgedNames_iff fields (.array es)).2 ⟨es, rfl, hes⟩
      exact ⟨_, fields, some (.array es), names, found, rfl, hnames, hfound, rfl⟩

/-- Whether the object that a preference is stated with holds a number. -/
def holdsNumber : List Expr → Bool
  | .object fields :: _ => fields.any (·.2.isNumeral)
  | _ => false

/-- There are two pairs exactly if the object holds a number. -/
theorem expand_cases {args : List Expr} {expansion : Expansion} (h : expand args = .ok expansion) :
    (holdsNumber args = true ∧ ∃ base up down, expansion = .spread base up down) ∨
      (holdsNumber args = false ∧ ∃ base nudged, expansion = .pair base nudged) := by
  obtain ⟨fields, list, names, found, rfl, -, hfound, rfl⟩ := (expand_eq_ok_iff args expansion).1 h
  rw [holdsNumber, any_isNumeral_of_constants hfound, expansionOf]
  cases found.any (isNumber ·.2) with
  | true => exact Or.inl ⟨rfl, found, _, _, rfl⟩
  | false => exact Or.inr ⟨rfl, found, _, rfl⟩

/-! What a preference is stated with has no names in it, so renaming does not change it. -/

theorem strings_mapNames (f : String → String) (es : List Expr) :
    strings (Expr.mapNamesOfList f es) = strings es := by
  induction es with
  | nil => rfl
  | cons e es ih =>
    cases e with
    | literal value =>
      cases value with
      | string s => simp [Expr.mapNamesOfList, Expr.mapNames, strings, ih]
      | _ => rfl
    | _ => rfl

theorem constants_mapNames (f : String → String) (fields : List (String × Expr)) :
    constants (Expr.mapNamesOfFields f fields) = constants fields := by
  induction fields with
  | nil => rfl
  | cons field fields ih =>
    obtain ⟨key, e⟩ := field
    cases e with
    | literal value =>
      cases value with
      | string s => rfl
      | _ => simp [Expr.mapNamesOfFields, Expr.mapNames, constants, ih]
    | _ => rfl

theorem nudgedNames_mapNames (f : String → String) (fields : List (String × Expr))
    (list : Option Expr) :
    nudgedNames (Expr.mapNamesOfFields f fields) (list.map (Expr.mapNames f)) =
      nudgedNames fields list := by
  cases list with
  | none =>
    have hkeys : (Expr.mapNamesOfFields f fields).map Prod.fst = fields.map Prod.fst := by
      simp [Expr.mapNamesOfFields_eq_map]
    exact congrArg Except.ok hkeys
  | some e =>
    cases e with
    | array es => exact strings_mapNames f es
    | _ => rfl

theorem arguments_mapNames (f : String → String) (args : List Expr) :
    arguments (Expr.mapNamesOfList f args) = (arguments args).map fun found =>
      (Expr.mapNamesOfFields f found.1, found.2.map (Expr.mapNames f)) := by
  match args with
  | [] => rfl
  | [e] => cases e <;> rfl
  | [e, list] => cases e <;> rfl
  | e :: list :: more :: args =>
    simp [Expr.mapNamesOfList_eq_map, arguments, Except.map]

theorem expand_mapNames (f : String → String) (args : List Expr) :
    expand (Expr.mapNamesOfList f args) = expand args := by
  rw [expand, expand, arguments_mapNames]
  cases arguments args with
  | error problem => rfl
  | ok found =>
    obtain ⟨fields, list⟩ := found
    dsimp only [Except.map, bind, Except.bind]
    rw [nudgedNames_mapNames, constants_mapNames]

end Preference

/-! ## Expressions -/

/-- A scope in which nothing becomes built in and nothing built in becomes something else. -/
def Scope.Transparent (scope : Scope) : Prop := ∀ x y, Builtin y → (scope x = y ↔ x = y)

theorem Scope.transparent_id : Scope.Transparent id := fun _ _ _ => Iff.rfl

theorem Scope.Reserved.not_builtin {x : String} (h : Scope.Reserved x) : ¬ Builtin x := by
  rcases h with rfl | rfl <;> simp [Builtin] <;> decide

theorem Scope.Transparent.bind {scope : Scope} (h : scope.Transparent) {result reserved : String}
    (hresult : ¬ Builtin result) (hreserved : Scope.Reserved reserved) :
    (scope.bind (scope result) reserved).Transparent := by
  intro x y hy
  have hne : y ≠ reserved := by
    rintro rfl
    exact hreserved.not_builtin hy
  rw [Scope.bind, renamed]
  split
  · -- a name that shares what the result has become is not built in, as the result is not
    rename_i heq
    constructor
    · intro hr
      exact absurd hr.symm hne
    · rintro rfl
      have hself : result = x := (h result x hy).1 (heq ▸ (h x x hy).2 rfl)
      exact absurd (hself ▸ hy) hresult
  · exact h x y hy

theorem Scope.Transparent.isName_mapNames {scope : Scope} (h : scope.Transparent) {y : String}
    (hy : Builtin y) (e : Expr) : (e.mapNames scope).isName y = e.isName y := by
  cases e with
  | name x => simp [Expr.mapNames, Expr.isName, h x y hy]
  | _ => rfl

theorem Preference.expandCall?_of_isName {callee : Expr}
    (h : callee.isName callName = true) (args : List Expr) :
    expandCall? (.call callee args) = expand args >>= fun expansion => .ok (some expansion) := by
  rw [Expr.isName_eq_true_iff.1 h, expandCall?, if_pos rfl]

theorem Preference.expandCall?_eq_none_of_not_call {e : Expr}
    (h : ∀ callee args, e = .call callee args → callee.isName callName = false) :
    expandCall? e = .ok none := by
  unfold expandCall?
  split
  · rename_i x args
    rw [if_neg (of_decide_eq_false (h _ args rfl))]
  · rfl

/-- The elements of an array, or the value alone. -/
def Json.elements : Json → List Json
  | .array elements => elements
  | j => [j]

/-- Whether an expression is lowered to an array whose elements join the list around it: it is a
spread, or a preference with a number. -/
def Expr.splices : Expr → Bool
  | .spread _ => true
  | .call callee args => callee.isName Preference.callName && Preference.holdsNumber args
  | _ => false

/-- What an expression that is lowered to a value adds to a list. -/
def Expr.joined (e : Expr) (j : Json) : List Json := if e.splices then j.elements else [j]

/-- A preference is lowered to its expansion. -/
theorem Expr.lower_preference {callee : Expr} (h : callee.isName Preference.callName = true)
    (args : List Expr) :
    (Expr.call callee args).lower =
      Preference.expand args >>= fun expansion => .ok expansion.lower := by
  have hexists : callee.isName "exists" = false := by
    rw [Expr.isName_eq_true_iff.1 h]
    decide
  rw [Expr.lower, hexists, h]
  rfl

theorem Expr.eq_array_of_splices {e : Expr} (he : e.splices = true) {j : Json}
    (hj : e.lower = .ok j) : j = .array j.elements := by
  cases e with
  | spread elements =>
    simp only [Expr.lower, bind_eq_ok_iff, Except.ok.injEq] at hj
    obtain ⟨values, -, rfl⟩ := hj
    rfl
  | call callee args =>
    obtain ⟨hname, hnumber⟩ := Bool.and_eq_true_iff.1 he
    rw [Expr.lower_preference hname] at hj
    obtain ⟨expansion, hexpand, heq⟩ := bind_eq_ok_iff.1 hj
    cases heq
    rcases Preference.expand_cases hexpand with ⟨-, base, up, down, rfl⟩ | ⟨hnone, -⟩
    · rfl
    · exact absurd (hnone.symm.trans hnumber) Bool.false_ne_true
  | _ => cases he

theorem Expr.joined_cases {e : Expr} {j : Json} (hj : e.lower = .ok j) :
    e.joined j = [j] ∨ j = .array (e.joined j) := by
  unfold Expr.joined
  cases he : e.splices with
  | true => exact Or.inr (Expr.eq_array_of_splices he hj)
  | false => exact Or.inl rfl

/-- Lowering a list lowers its first element, which joins the list as it is or with the elements of
the array that it has become. -/
theorem Expr.lowerElements_cons (e : Expr) (es : List Expr) :
    Expr.lowerElements (e :: es) = e.lower >>= fun j =>
      Expr.lowerElements es >>= fun others => .ok (e.joined j ++ others) := by
  by_cases hspread : ∃ elements, e = .spread elements
  · obtain ⟨elements, rfl⟩ := hspread
    rw [Expr.lowerElements, Expr.lower, bind_assoc]
    rfl
  have hne : ∀ elements, e ≠ .spread elements := not_exists.1 hspread
  rw [Expr.lowerElements.eq_3 e es hne]
  by_cases hcall : ∃ callee args, e = .call callee args ∧ callee.isName Preference.callName = true
  · obtain ⟨callee, args, rfl, hname⟩ := hcall
    rw [Preference.expandCall?_of_isName hname, Expr.lower_preference hname]
    cases hexpand : Preference.expand args with
    | error problem => rfl
    | ok expansion =>
      have hsplices : (Expr.call callee args).splices = Preference.holdsNumber args := by
        rw [Expr.splices, hname, Bool.true_and]
      unfold Expr.joined
      rw [hsplices]
      -- two pairs join the list, while a single pair is one element, though it is an array too
      rcases Preference.expand_cases hexpand with ⟨hnumber, base, up, down, rfl⟩ |
        ⟨hnumber, base, nudged, rfl⟩
      · rw [hnumber]
        rfl
      · rw [hnumber]
        rfl
  · have hcallee : ∀ callee args, e = .call callee args →
        callee.isName Preference.callName = false := by
      rintro callee args rfl
      exact Bool.eq_false_iff.2 fun hname => hcall ⟨callee, args, rfl, hname⟩
    have hkept : e.splices = false := by
      cases e with
      | spread elements => exact absurd rfl (hne elements)
      | call callee args => rw [Expr.splices, hcallee callee args rfl, Bool.false_and]
      | _ => rfl
    rw [Preference.expandCall?_eq_none_of_not_call hcallee]
    unfold Expr.joined
    rw [hkept]
    rfl

section

variable {scope : Scope}

mutual

/-- An expression is lowered, in a transparent scope, exactly if it is supported. -/
theorem Expr.exists_lower_iff (hscope : scope.Transparent) : ∀ e : Expr,
    (∃ j, (e.mapNames scope).lower = .ok j) ↔ e.Supported
  | .binary op left right => by
    simp [Expr.mapNames, Expr.lower, Expr.Supported, exists_bind_eq_ok_iff,
      ← Expr.exists_lower_iff hscope left, ← Expr.exists_lower_iff hscope right]
  | .not operand => by
    simp [Expr.mapNames, Expr.lower, Expr.Supported, exists_bind_eq_ok_iff,
      ← Expr.exists_lower_iff hscope operand]
  | .call callee args => by
    rw [Expr.mapNames, Expr.lower, hscope.isName_mapNames (Or.inl rfl),
      hscope.isName_mapNames (Or.inr (Or.inl rfl)), Preference.expand_mapNames, Expr.Supported]
    split
    · exact Expr.exists_lowerExists_iff hscope args
    split
    · simp [exists_bind_eq_ok_iff, ← Preference.exists_expand_iff]
    · simp [exists_bind_eq_ok_iff, ← Expr.exists_lower_iff hscope callee,
        ← Expr.exists_lowerEach_iff hscope args]
  | .member target property => by
    simp [Expr.mapNames, Expr.lower, Expr.Supported, exists_bind_eq_ok_iff,
      ← Expr.exists_lower_iff hscope target, ← Expr.exists_lower_iff hscope property, and_comm]
  | .name x => by simp [Expr.mapNames, Expr.lower, Expr.Supported]
  | .literal value => by simp [Expr.mapNames, Expr.lower, Expr.Supported]
  | .array elements => by
    simp [Expr.mapNames, Expr.lower, Expr.Supported, exists_bind_eq_ok_iff,
      ← Expr.exists_lowerElements_iff hscope elements]
  | .object fields => by
    simp [Expr.mapNames, Expr.lower, Expr.Supported, exists_bind_eq_ok_iff,
      ← Expr.exists_lowerFields_iff hscope fields []]
  | .spread elements => by
    simp [Expr.mapNames, Expr.lower, Expr.Supported, exists_bind_eq_ok_iff,
      ← Expr.exists_lowerEach_iff hscope elements]

theorem Expr.exists_lowerExists_iff (hscope : scope.Transparent) : ∀ args : List Expr,
    (∃ j, Expr.lowerExists (Expr.mapNamesOfList scope args) = .ok j) ↔ Expr.SupportedFirst args
  | [] => by simp [Expr.mapNamesOfList, Expr.lowerExists, Expr.SupportedFirst]
  | e :: es => by
    simp [Expr.mapNamesOfList, Expr.lowerExists, Expr.SupportedFirst, exists_bind_eq_ok_iff,
      ← Expr.exists_lower_iff hscope e]

theorem Expr.exists_lowerEach_iff (hscope : scope.Transparent) : ∀ es : List Expr,
    (∃ values, Expr.lowerEach (Expr.mapNamesOfList scope es) = .ok values) ↔ Expr.SupportedEach es
  | [] => by simp [Expr.mapNamesOfList, Expr.lowerEach, Expr.SupportedEach]
  | e :: es => by
    simp [Expr.mapNamesOfList, Expr.lowerEach, Expr.SupportedEach, exists_bind_eq_ok_iff,
      ← Expr.exists_lower_iff hscope e, ← Expr.exists_lowerEach_iff hscope es]

theorem Expr.exists_lowerElements_iff (hscope : scope.Transparent) : ∀ es : List Expr,
    (∃ values, Expr.lowerElements (Expr.mapNamesOfList scope es) = .ok values) ↔
      Expr.SupportedEach es
  | [] => by simp [Expr.mapNamesOfList, Expr.lowerElements, Expr.SupportedEach]
  | e :: es => by
    simp [Expr.mapNamesOfList, Expr.lowerElements_cons, Expr.SupportedEach, exists_bind_eq_ok_iff,
      ← Expr.exists_lower_iff hscope e, ← Expr.exists_lowerElements_iff hscope es]

theorem Expr.exists_lowerFields_iff (hscope : scope.Transparent) :
    ∀ (fields : List (String × Expr)) (members : List (String × Json)),
    (∃ all, Expr.lowerFields members (Expr.mapNamesOfFields scope fields) = .ok all) ↔
      Expr.SupportedFields fields
  | [], members => by simp [Expr.mapNamesOfFields, Expr.lowerFields, Expr.SupportedFields]
  | (key, e) :: fields, members => by
    simp [Expr.mapNamesOfFields, Expr.lowerFields, Expr.SupportedFields, exists_bind_eq_ok_iff,
      Expr.exists_lowerFields_iff hscope fields, ← Expr.exists_lower_iff hscope e]

end

end

/-! ## Assignments -/

/-- What a number is lowered to. -/
theorem Double.lower_cases (v : Double) :
    v.lower = .null ∨ (∃ n, v.lower = .integer n) ∨ ∃ x, v.lower = .real x := by
  cases v with
  | finite x =>
    rw [Double.lower]
    split
    · rename_i n _
      split
      · exact Or.inr (Or.inl ⟨n, rfl⟩)
      · exact Or.inr (Or.inr ⟨x, rfl⟩)
    · exact Or.inr (Or.inr ⟨x, rfl⟩)
  | _ => exact Or.inl rfl

theorem Double.lower_ne_string (v : Double) (text : String) : v.lower ≠ .string text := by
  rcases v.lower_cases with h | ⟨n, h⟩ | ⟨x, h⟩ <;> simp [h]

theorem Preference.Expansion.lower_ne_string (expansion : Expansion) (text : String) :
    expansion.lower ≠ .string text := by
  intro h
  cases expansion <;> cases h

theorem Expr.lowerExists_ne_string (args : List Expr) (text : String) :
    Expr.lowerExists args ≠ .ok (.string text) := by
  cases args with
  | nil =>
    intro h
    cases h
  | cons e es => simp [Expr.lowerExists, bind_eq_ok_iff]

/-- Only names and texts are lowered to a string. -/
theorem Expr.lower_eq_string_iff {e : Expr} {text : String} :
    e.lower = .ok (.string text) ↔
      (text ≠ "null" ∧ e = .name text) ∨ ∃ s, e = .literal (.string s) ∧ text = quoted s := by
  cases e with
  | name x =>
    rw [Expr.lower, lowerName]
    split
    · rename_i hnull
      simp only [Except.ok.injEq, reduceCtorEq, Expr.name.injEq, false_and, exists_false, or_false,
        false_iff, not_and]
      rintro hne rfl
      exact hne hnull
    · rename_i hnull
      simp only [Except.ok.injEq, Json.string.injEq, Expr.name.injEq, reduceCtorEq, false_and,
        exists_false, or_false]
      constructor
      · rintro rfl
        exact ⟨hnull, rfl⟩
      · exact fun h => h.2
  | literal value =>
    cases value with
    | string s => simp [Expr.lower, Literal.lower, eq_comm]
    | number v => simp [Expr.lower, Literal.lower, Double.lower_ne_string]
    | boolean b => simp [Expr.lower, Literal.lower]
  | call callee args =>
    rw [Expr.lower]
    split
    · simp [Expr.lowerExists_ne_string]
    split
    · simp [bind_eq_ok_iff, Preference.Expansion.lower_ne_string]
    · simp [bind_eq_ok_iff]
  | _ => simp [Expr.lower, bind_eq_ok_iff, Json.list]

/-- An edit of something that is lowered to a string. -/
theorem Target.lower_edit_eq_ok_iff {root value : Expr} {keys : List Expr} {result : Json × Json} :
    (Target.edit root keys).lower value = .ok result ↔
      ∃ text v ks, root.lower = .ok (.string text) ∧ value.lower = .ok v ∧
        Expr.lowerEach keys = .ok ks ∧
        result = (.string (quoted text),
          .array (.string (quoted "edit") :: .string text :: v :: ks)) := by
  rw [Target.lower, bind_eq_ok_iff]
  constructor
  · rintro ⟨j, hroot, h⟩
    cases j with
    | string text =>
      simp only [bind_eq_ok_iff, Except.ok.injEq] at h
      obtain ⟨v, hv, ks, hks, rfl⟩ := h
      exact ⟨text, v, ks, hroot, hv, hks, rfl⟩
    | _ => cases h
  · rintro ⟨text, v, ks, hroot, hv, hks, rfl⟩
    refine ⟨.string text, hroot, ?_⟩
    simp only [hv, hks]
    rfl

section

variable {scope : Scope}

theorem Expr.exists_lowerTargets_iff (scope : Scope) (es : List Expr) :
    (∃ targets, Expr.lowerTargets (Expr.mapNamesOfList scope es) = .ok targets) ↔
      ∀ e ∈ es, ∃ x, e = .name x := by
  induction es with
  | nil => simp [Expr.mapNamesOfList, Expr.lowerTargets]
  | cons e es ih =>
    rw [List.forall_mem_cons, ← ih]
    cases e with
    | name x =>
      simp [Expr.mapNamesOfList, Expr.mapNames, Expr.lowerTargets, Expr.lowerTarget,
        exists_bind_eq_ok_iff]
    | _ =>
      simp [Expr.mapNamesOfList, Expr.mapNames, Expr.lowerTargets, Expr.lowerTarget,
        exists_bind_eq_ok_iff]

theorem Expr.isRoot_mapNames_iff (hscope : scope.Transparent) (root : Expr) :
    (∃ text, (root.mapNames scope).lower = .ok (.string text)) ↔ root.IsRoot := by
  simp only [Expr.lower_eq_string_iff]
  cases root with
  | name x =>
    have hnull : scope x ≠ "null" ↔ x ≠ "null" := not_congr (hscope x _ (Or.inr (Or.inr rfl)))
    simp [Expr.mapNames, Expr.IsRoot, Expr.IsString, hnull]
  | literal value => cases value <;> simp [Expr.mapNames, Expr.IsRoot, Expr.IsString]
  | _ => simp [Expr.mapNames, Expr.IsRoot, Expr.IsString]

theorem Target.exists_lowerAssignment_iff (hscope : scope.Transparent) (target : Target)
    (value : Expr) :
    (∃ j, (target.mapNames scope).lowerAssignment (value.mapNames scope) = .ok j) ↔
      target.Supported ∧ value.Supported := by
  simp only [Target.lowerAssignment, exists_bind_eq_ok_iff, Except.ok.injEq, exists_eq', and_true]
  rw [← Expr.exists_lower_iff hscope value]
  cases target with
  | name x => simp [Target.mapNames, Target.lower, Target.Supported, exists_bind_eq_ok_iff]
  | list elements =>
    rw [Target.mapNames, Target.Supported, ← Expr.exists_lowerTargets_iff scope]
    simp [Target.lower, exists_bind_eq_ok_iff]
  | edit root keys =>
    rw [Target.mapNames, Target.Supported, ← Expr.isRoot_mapNames_iff hscope,
      ← Expr.exists_lowerEach_iff hscope]
    simp only [Target.lower_edit_eq_ok_iff]
    constructor
    · rintro ⟨_, text, v, ks, hroot, hv, hks, -⟩
      exact ⟨⟨⟨text, hroot⟩, ks, hks⟩, v, hv⟩
    · rintro ⟨⟨⟨text, hroot⟩, ks, hks⟩, v, hv⟩
      exact ⟨_, text, v, ks, hroot, hv, hks, rfl⟩

/-! ## Statements -/

theorem Expr.exists_lowerOptionIn_iff (hscope : scope.Transparent) (condition : Option Expr) :
    (∃ value, Expr.lowerOptionIn scope condition = .ok value) ↔ ∀ e ∈ condition, e.Supported := by
  cases condition with
  | none => simp [Expr.lowerOptionIn]
  | some e =>
    simp [Expr.lowerOptionIn, Expr.lowerIn, exists_bind_eq_ok_iff, ← Expr.exists_lower_iff hscope e]

theorem Expr.exists_lowerSchemeIn_iff (hscope : scope.Transparent)
    (scheme : Option (List (String × Expr))) :
    (∃ value, Expr.lowerSchemeIn scope scheme = .ok value) ↔
      ∀ fields ∈ scheme, Expr.SupportedFields fields := by
  cases scheme with
  | none => simp [Expr.lowerSchemeIn]
  | some fields =>
    have hobject := Expr.exists_lower_iff hscope (.object fields)
    rw [Expr.Supported] at hobject
    simp [Expr.lowerSchemeIn, Expr.lowerIn, exists_bind_eq_ok_iff, hobject]

theorem Expr.exists_lowerCallIn_iff (hscope : scope.Transparent) (name : Expr) (args : List Expr) :
    (∃ call, name.lowerCallIn scope args = .ok call) ↔
      name.Supported ∧ Expr.SupportedEach args := by
  rw [← Expr.exists_lower_iff hscope name, ← Expr.exists_lowerElements_iff hscope args]
  simp [Expr.lowerCallIn, Expr.lowerList, Expr.lowerIn, exists_bind_eq_ok_iff]

end

mutual

/-- A statement is lowered exactly if it and all statements inside it are supported. Below a
binding the scope is another one, but still transparent. -/
theorem Statement.exists_lower_iff {scope : Scope} (hscope : scope.Transparent) :
    ∀ s : Statement, (∀ t, Node.statement t ∈ s.nodes → t.Regular) →
      ((∃ j, s.lower scope = .ok j) ↔ ∀ t, Node.statement t ∈ s.nodes → t.Supported)
  | .fork choice, h => by
    simp only [Statement.nodes, List.mem_cons, Node.statement.injEq, forall_eq_or_imp] at h ⊢
    rw [Statement.lower, Fork.exists_lower_iff hscope [] choice h.2]
    rfl
  | .input result choice, h => by
    simp only [Statement.nodes, List.mem_cons, Node.statement.injEq, reduceCtorEq, false_or,
      forall_eq_or_imp] at h ⊢
    rw [Statement.lower, Fork.exists_lower_iff (hscope.bind h.1 (Or.inl rfl)) _ choice h.2]
    rfl
  | .await condition body, h => by
    simp only [Statement.nodes, List.mem_cons, List.mem_append, Node.statement.injEq, reduceCtorEq,
      Expr.statement_not_mem_nodes, false_or, forall_eq_or_imp] at h ⊢
    rw [← Statement.exists_lowerEach_iff hscope body h.2, Statement.Supported,
      ← Expr.exists_lower_iff hscope condition]
    simp [Statement.lower, Expr.lowerIn, exists_bind_eq_ok_iff, and_comm]
  | .once body, h => by
    simp only [Statement.nodes, List.mem_cons, Node.statement.injEq, reduceCtorEq, false_or,
      forall_eq_or_imp] at h ⊢
    rw [← Statement.exists_lowerEach_iff hscope body h.2, Statement.Supported]
    simp [Statement.lower, exists_bind_eq_ok_iff]
  | .perform verb value, _ => by
    simp only [Statement.nodes, List.mem_cons, Node.statement.injEq, Expr.statement_not_mem_nodes,
      or_false, forall_eq]
    rw [Statement.Supported, ← Expr.exists_lower_iff hscope value]
    simp [Statement.lower, Expr.lowerIn, exists_bind_eq_ok_iff]
  | .set target value, _ => by
    simp only [Statement.nodes, List.mem_cons, List.mem_append, Node.statement.injEq,
      Expr.statement_not_mem_nodes, Target.statement_not_mem_nodes, or_false, forall_eq]
    exact target.exists_lowerAssignment_iff hscope value
  | .run name args result none, _ => by
    simp only [Statement.nodes, List.mem_cons, List.mem_append, List.mem_map, Node.statement.injEq,
      Expr.statement_not_mem_nodes, Expr.statement_not_mem_nodesOfList, reduceCtorEq, and_false,
      exists_const, or_self, or_false, forall_eq]
    rw [Statement.Supported, ← and_assoc, ← Expr.exists_lowerCallIn_iff hscope]
    cases result <;> simp [Statement.lower, exists_bind_eq_ok_iff]
  | .run name args result (some choice), h => by
    simp only [Statement.nodes, List.mem_cons, List.mem_append, List.mem_map, Node.statement.injEq,
      Expr.statement_not_mem_nodes, Expr.statement_not_mem_nodesOfList, reduceCtorEq, and_false,
      exists_const, or_self, false_or, forall_eq_or_imp] at h ⊢
    obtain ⟨⟨x, rfl, hx⟩, hchoice⟩ := h
    have hfork := Fork.exists_lower_iff (hscope.bind hx (Or.inr rfl))
      [("await", .array [.string "return"])] choice hchoice
    rw [Statement.Supported, ← and_assoc, ← Expr.exists_lowerCallIn_iff hscope]
    simp only [Option.mem_some_iff, forall_eq', and_assoc, ← hfork]
    simp [Statement.lower, exists_bind_eq_ok_iff]
  | .use name imports, _ => by
    simp only [Statement.nodes, List.mem_cons, List.mem_append, List.mem_map, Node.statement.injEq,
      Expr.statement_not_mem_nodes, reduceCtorEq, and_false, exists_false, or_self, or_false,
      forall_eq]
    rw [Statement.Supported, ← Expr.exists_lower_iff hscope name]
    simp [Statement.lower, Expr.lowerIn, exists_bind_eq_ok_iff]
  | .define name params body, h => by
    simp only [Statement.nodes, List.mem_cons, List.mem_append, List.mem_map, Node.statement.injEq,
      reduceCtorEq, and_false, exists_const, false_or, forall_eq_or_imp] at h ⊢
    rw [← Statement.exists_lowerEach_iff hscope body h.2, Statement.Supported]
    simp [Statement.lower, exists_bind_eq_ok_iff]

theorem Fork.exists_lower_iff {scope : Scope} (hscope : scope.Transparent)
    (members : List (String × Json)) :
    ∀ choice : Fork Statement, (∀ t, Node.statement t ∈ Fork.nodes choice → t.Regular) →
      ((∃ j, Fork.lower scope members choice = .ok j) ↔
        choice.Supported ∧ ∀ t, Node.statement t ∈ Fork.nodes choice → t.Supported)
  | ⟨scheme, branches⟩, h => by
    simp only [Fork.nodes, List.mem_cons, List.mem_append, reduceCtorEq,
      Expr.statement_not_mem_nodesOfScheme, false_or] at h ⊢
    rw [Fork.lower, Fork.Supported, ← Expr.exists_lowerSchemeIn_iff hscope, and_assoc,
      ← Branch.exists_lowerEach_iff hscope branches h]
    simp [exists_bind_eq_ok_iff, and_comm]

theorem Branch.exists_lowerEach_iff {scope : Scope} (hscope : scope.Transparent) :
    ∀ branches : List (Branch Statement),
      (∀ t, Node.statement t ∈ Branch.nodesOfList branches → t.Regular) →
      ((∃ values, Branch.lowerEach scope branches = .ok values) ↔
        (∀ branch ∈ branches, ∀ e ∈ branch.condition, e.Supported) ∧
          ∀ t, Node.statement t ∈ Branch.nodesOfList branches → t.Supported)
  | [], _ => by simp [Branch.lowerEach, Branch.nodesOfList]
  | ⟨condition, body⟩ :: branches, h => by
    simp only [Branch.nodesOfList, List.mem_cons, List.mem_append, List.cons_append, reduceCtorEq,
      Expr.statement_not_mem_nodesOfOption, false_or, or_imp, forall_and, forall_eq] at h ⊢
    rw [← Statement.exists_lowerEach_iff hscope body h.1,
      ← Expr.exists_lowerOptionIn_iff hscope, and_and_and_comm,
      ← Branch.exists_lowerEach_iff hscope branches h.2]
    simp [Branch.lowerEach, exists_bind_eq_ok_iff, and_left_comm, and_assoc]

theorem Statement.exists_lowerEach_iff {scope : Scope} (hscope : scope.Transparent) :
    ∀ statements : List Statement,
      (∀ t, Node.statement t ∈ Statement.nodesOfList statements → t.Regular) →
      ((∃ values, Statement.lowerEach scope statements = .ok values) ↔
        ∀ t, Node.statement t ∈ Statement.nodesOfList statements → t.Supported)
  | [], _ => by simp [Statement.lowerEach, Statement.nodesOfList]
  | s :: statements, h => by
    simp only [Statement.nodesOfList, List.mem_append, or_imp, forall_and] at h ⊢
    rw [← Statement.exists_lower_iff hscope s h.1,
      ← Statement.exists_lowerEach_iff hscope statements h.2]
    simp [Statement.lowerEach, exists_bind_eq_ok_iff]

end

/-- Which scripts are lowered: those in which every statement, at every depth, is supported. -/
theorem Script.lower_eq_ok_iff (script : Script)
    (h : ∀ s, Node.statement s ∈ script.nodes → s.Regular) :
    (∃ program, script.lower = .ok program) ↔
      ∀ s, Node.statement s ∈ script.nodes → s.Supported := by
  simp only [Script.nodes, List.mem_cons, reduceCtorEq, false_or] at h ⊢
  rw [← Statement.exists_lowerEach_iff Scope.transparent_id script h]
  simp [Script.lower, exists_bind_eq_ok_iff]

/-- A test with a second argument that could not be lowered alone, and an edit of a text, both in
the branches of a result. -/
theorem Script.lower_eq_ok_iff_surplus : ∃ program, Script.lower [.input "a" (.plain
    [⟨some (.call (.name "exists") [.name "a", .call (.name "pref") []]),
      [.set (.edit (.literal (.string "t")) [.name "a"])
        (.array [.call (.name "pref") [.object [("x", .literal (.boolean true))]]])]⟩])] =
      .ok program := by
  refine (Script.lower_eq_ok_iff _ ?regular).2 ?supported
  case regular =>
    simp [Script.nodes, Statement.nodesOfList, Statement.nodes, Fork.plain, Fork.nodes,
      Branch.nodesOfList, Expr.nodesOfScheme, Expr.statement_not_mem_nodesOfOption,
      Target.statement_not_mem_nodes, Expr.statement_not_mem_nodes, Statement.Regular, Builtin,
      Preference.callName]
  case supported =>
    simp [Script.nodes, Statement.nodesOfList, Statement.nodes, Fork.plain, Fork.nodes,
      Branch.nodesOfList, Expr.nodesOfScheme, Expr.statement_not_mem_nodesOfOption,
      Target.statement_not_mem_nodes, Expr.statement_not_mem_nodes, Statement.Supported,
      Fork.Supported, Target.Supported, Expr.IsRoot, Expr.IsString, Expr.Supported,
      Expr.SupportedEach, Expr.SupportedFirst, Expr.isName, Preference.callName, Preference.Stated,
      Preference.IsConstant]

end Dialogue
