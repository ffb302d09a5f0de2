import Dialogue.Proofs.Program.Supported
import Dialogue.Proofs.Written.Integer
import Dialogue.Trace
import Mathlib.Data.List.Forall2

/-!
# Expansions of preferences

A preference is expanded to pairs of its object and a nudged copy. `Nudged` tells what may become of
a field: it keeps its name, and its value too unless the name is listed. A number that is listed
moves by one if it is zero and else by three times itself (`Double.nudge_of_isZero`,
`Double.nudge_ofInt`). An expansion is data, made of lists, objects and constants alone, so lowering
it meets no further preference and does not fail;
`Expansion.lower_toExpr` says that it gives what a preference is lowered to. The main result puts
this together for every list of arguments that can be expanded (`expand_nudges_listed`).
-/

namespace Dialogue

/-! ## Data -/

/-- Whether an expression is a list, an object or a constant. -/
def Expr.isData : Expr → Bool
  | .array _ | .spread _ | .object _ | .literal _ => true
  | _ => false

/-- Whether a node is part of data. -/
def Node.isData : Node → Bool
  | .expression e => e.isData
  | .literal _ => true
  | _ => false

/-! ## Numbers -/

namespace Double

theorem eq_zero_of_isZero {v : Double} (h : v.isZero = true) :
    ∃ negative, v = .finite (.zero negative) := by
  cases v with
  | finite x =>
    obtain ⟨negative, mantissa, exponent, hmantissa, hexponent, hnormal⟩ := x
    obtain rfl : mantissa = 0 := beq_iff_eq.1 h
    obtain rfl : exponent = 0 := hnormal.resolve_right (by decide)
    exact ⟨negative, rfl⟩
  | _ => cases h

/-- Zero moves by one, whatever its sign. -/
theorem nudge_of_isZero {v : Double} (h : v.isZero = true) :
    v.nudge .up = .ofInt 1 ∧ v.nudge .down = .ofInt (-1) := by
  obtain ⟨negative, rfl⟩ := eq_zero_of_isZero h
  have hdown : finite (.zero negative) - ofInt 1 = finite (.zero negative) + ofInt (-1) := by
    change finite (.zero negative) + neg (ofInt 1) = _
    rw [neg_ofInt (by decide)]
  simp only [nudge, h, if_true, hdown]
  exact ⟨zero_add_ofInt negative (by decide) (by decide),
    zero_add_ofInt negative (by decide) (by decide)⟩

/-- Any other small integer moves by three times itself. -/
theorem nudge_ofInt {k : Int} (h : k.natAbs < 2 ^ (51 : Nat)) (hne : k ≠ 0) :
    (ofInt k).nudge .up = .ofInt (4 * k) ∧ (ofInt k).nudge .down = .ofInt (-2 * k) := by
  have hstep : ofInt k * ofInt 3 = ofInt (k * 3) := ofInt_mul (by omega) (by decide) (by decide)
  have hup : k + k * 3 = 4 * k := by omega
  have hdown : k - k * 3 = -2 * k := by omega
  simp only [nudge, isZero_ofInt (by omega) hne, Bool.false_eq_true, if_false, hstep]
  rw [← hup, ← hdown]
  exact ⟨ofInt_add (by omega) (by omega) (by omega),
    ofInt_sub (by omega) (by omega) (by omega) (by omega)⟩

end Double

namespace Preference

/-- What nudging in a direction makes of a field, where the names of the fields to nudge are given:
other fields are kept, switches are flipped, and numbers are moved. -/
inductive Nudged (names : List String) (direction : Direction) :
    String × Expr → String × Expr → Prop
  | kept {key : String} {e : Expr} : key ∉ names → Nudged names direction (key, e) (key, e)
  | flipped {key : String} {b : Bool} : key ∈ names →
    Nudged names direction (key, .literal (.boolean b)) (key, .literal (.boolean !b))
  | moved {key : String} {v : Double} : key ∈ names →
    Nudged names direction (key, .literal (.number v)) (key, .literal (.number (v.nudge direction)))

theorem Nudged.key_eq {names : List String} {direction : Direction} {field nudged : String × Expr}
    (h : Nudged names direction field nudged) : nudged.1 = field.1 := by
  cases h <;> rfl

/-- The direction makes a difference to listed numbers only. -/
theorem Nudged.eq_or_number {names : List String} {field up down : String × Expr}
    (hup : Nudged names .up field up) (hdown : Nudged names .down field down) :
    up = down ∨ ∃ key v, field = (key, .literal (.number v)) ∧ key ∈ names := by
  cases hup with
  | kept hkey =>
    cases hdown with
    | kept _ => exact Or.inl rfl
    | flipped hmem => exact absurd hmem hkey
    | moved hmem => exact absurd hmem hkey
  | flipped hkey =>
    cases hdown with
    | kept hnot => exact absurd hkey hnot
    | flipped _ => exact Or.inl rfl
  | moved hkey => exact Or.inr ⟨_, _, rfl, hkey⟩

/-! ## Fields -/

/-- The fields of an object of constants, as expressions. -/
def Fields.exprs (fields : Fields) : List (String × Expr) :=
  fields.map fun field => (field.1, .literal field.2)

theorem Fields.toExpr_eq (fields : Fields) : fields.toExpr = .object fields.exprs := rfl

theorem nudged_field {names : List String} {field : String × Literal}
    (h : IsConstant (.literal field.2)) (direction : Direction) :
    Nudged names direction (field.1, .literal field.2)
      (field.1, .literal (if field.1 ∈ names then field.2.nudge direction else field.2)) := by
  obtain ⟨key, value⟩ := field
  by_cases hkey : key ∈ names
  · rw [if_pos hkey]
    rcases h with ⟨v, hv⟩ | ⟨b, hb⟩
    · cases hv
      exact .moved hkey
    · cases hb
      exact .flipped hkey
  · rw [if_neg hkey]
    exact .kept hkey

/-- Each field of a nudged copy is what nudging makes of the field in the same place. -/
theorem forall₂_nudge {found : Fields} (h : ∀ field ∈ found, IsConstant (.literal field.2))
    (names : List String) (direction : Direction) :
    List.Forall₂ (Nudged names direction) found.exprs (nudge names direction found).exprs := by
  induction found with
  | nil => exact .nil
  | cons field found ih =>
    rw [List.forall_mem_cons] at h
    exact .cons (nudged_field h.1 direction) (ih h.2)

/-- What becomes of a constant field is determined. -/
theorem Nudged.eq_nudge {names : List String} {direction : Direction} {field : String × Literal}
    {nudged : String × Expr} (h : Nudged names direction (field.1, .literal field.2) nudged) :
    nudged =
      (field.1, .literal (if field.1 ∈ names then field.2.nudge direction else field.2)) := by
  obtain ⟨key, value⟩ := field
  cases h with
  | kept hkey => rw [if_neg hkey]
  | flipped hkey =>
    rw [if_pos hkey]
    rfl
  | moved hkey =>
    rw [if_pos hkey]
    rfl

/-- There is one nudged copy of an object of constants. -/
theorem eq_nudge_of_forall₂ {names : List String} {direction : Direction} {found : Fields}
    {nudged : List (String × Expr)}
    (h : List.Forall₂ (Nudged names direction) found.exprs nudged) :
    nudged = (nudge names direction found).exprs := by
  induction found generalizing nudged with
  | nil =>
    cases h
    rfl
  | cons field found ih =>
    cases h with
    | cons hfield hothers =>
      rw [hfield.eq_nudge, ih hothers]
      rfl

theorem keys_eq_of_forall₂ {names : List String} {direction : Direction}
    {fields nudged : List (String × Expr)}
    (h : List.Forall₂ (Nudged names direction) fields nudged) :
    nudged.map Prod.fst = fields.map Prod.fst := by
  induction h with
  | nil => rfl
  | cons hfield _ ih => rw [List.map_cons, List.map_cons, hfield.key_eq, ih]

/-- Two copies differ only in places where the object has a listed number. -/
theorem number_of_getElem?_ne {names : List String} {fields up down : List (String × Expr)}
    (hup : List.Forall₂ (Nudged names .up) fields up)
    (hdown : List.Forall₂ (Nudged names .down) fields down) {i : Nat} (h : up[i]? ≠ down[i]?) :
    ∃ key v, fields[i]? = some (key, .literal (.number v)) ∧ key ∈ names := by
  induction hup generalizing down i with
  | nil =>
    cases hdown
    exact absurd rfl h
  | cons hfield _ ih =>
    cases hdown with
    | cons hfield' hothers =>
      cases i with
      | zero =>
        rcases hfield.eq_or_number hfield' with heq | ⟨key, v, heq, hkey⟩
        · exact absurd (congrArg some heq) h
        · exact ⟨key, v, congrArg some heq, hkey⟩
      | succ i => exact ih hothers h

theorem eq_map_of_strings {es : List Expr} {names : List String} (h : strings es = .ok names) :
    es = names.map fun name => .literal (.string name) := by
  induction es generalizing names with
  | nil =>
    cases h
    rfl
  | cons e es ih =>
    cases e with
    | literal value =>
      cases value with
      | string name =>
        obtain ⟨others, hothers, heq⟩ := bind_eq_ok_iff.1 h
        cases heq
        rw [ih hothers, List.map_cons]
      | _ => cases h
    | _ => cases h

/-! ## Expansions are data -/

theorem Fields.isData_nodes (fields : Fields) :
    ∀ node ∈ fields.toExpr.nodes, node.isData = true := by
  rw [Fields.toExpr_eq, Expr.nodes, List.forall_mem_cons]
  refine ⟨rfl, ?_⟩
  induction fields with
  | nil => exact nofun
  | cons field fields ih =>
    unfold Fields.exprs at ih ⊢
    rw [List.map_cons, Expr.nodesOfFields, List.forall_mem_append]
    exact ⟨by simp [Expr.nodes, Node.isData, Expr.isData], ih⟩

theorem Expansion.isData_nodes (expansion : Expansion) :
    ∀ node ∈ expansion.toExpr.nodes, node.isData = true := by
  have hpair (base nudged : Fields) :
      ∀ node ∈ (Expr.array [base.toExpr, nudged.toExpr]).nodes, node.isData = true := by
    simp only [Expr.nodes, Expr.nodesOfList, List.append_nil, List.forall_mem_cons,
      List.forall_mem_append]
    exact ⟨rfl, base.isData_nodes, nudged.isData_nodes⟩
  cases expansion with
  | pair base nudged => exact hpair base nudged
  | spread base up down =>
    rw [Expansion.toExpr, Expr.nodes, Expr.nodesOfList, Expr.nodesOfList, Expr.nodesOfList,
      List.append_nil, List.forall_mem_cons, List.forall_mem_append]
    exact ⟨rfl, hpair base up, hpair base down⟩

/-! ## Lowering expansions -/

theorem Fields.lower_toExpr (fields : Fields) : fields.toExpr.lower = .ok fields.lower := by
  have hfields (members : List (String × Json)) : Expr.lowerFields members fields.exprs =
      .ok (fields.foldl (fun members field =>
        Json.insert (quoted field.1) field.2.lower members) members) := by
    induction fields generalizing members with
    | nil => rfl
    | cons field fields ih => exact ih _
  rw [Fields.toExpr_eq, Expr.lower, hfields]
  rfl

theorem lower_pair (base nudged : Fields) :
    (Expr.array [base.toExpr, nudged.toExpr]).lower = .ok (.list [base.lower, nudged.lower]) := by
  rw [Expr.lower, Expr.lowerElements_cons, Expr.lowerElements_cons, base.lower_toExpr,
    nudged.lower_toExpr]
  rfl

/-- Lowering an expansion as an expression gives what the preference is lowered to. -/
theorem Expansion.lower_toExpr (expansion : Expansion) :
    expansion.toExpr.lower = .ok expansion.lower := by
  cases expansion with
  | pair base nudged => exact lower_pair base nudged
  | spread base up down =>
    rw [Expansion.toExpr, Expr.lower, Expr.lowerEach, Expr.lowerEach, lower_pair, lower_pair]
    rfl

theorem Fields.progress_toExpr (fields : Fields) : fields.toExpr.progress = .done := by
  rw [Fields.toExpr_eq, Expr.progress]
  induction fields with
  | nil => rfl
  | cons field fields ih =>
    unfold Fields.exprs at ih ⊢
    rw [List.map_cons, Expr.progressOfFields, ih]
    rfl

theorem Expansion.progress_toExpr (expansion : Expansion) :
    expansion.toExpr.progress = .done := by
  cases expansion <;>
    simp [Expansion.toExpr, Expr.progress, Expr.progressOfList, Fields.progress_toExpr,
      Progress.andThen, Progress.done]

/-! ## What a preference is expanded to -/

/-- The names to nudge are those of a list of strings, or all names of the object. -/
theorem list_of_nudgedNames {fields : List (String × Expr)} {list : Option Expr}
    {names : List String} (h : nudgedNames fields list = .ok names) :
    list = none ∧ names = fields.map Prod.fst ∨
      list = some (.array (names.map fun name => .literal (.string name))) := by
  cases list with
  | none =>
    cases h
    exact Or.inl ⟨rfl, rfl⟩
  | some e =>
    cases e with
    | array es =>
      have hes : strings es = .ok names := h
      rw [eq_map_of_strings hes]
      exact Or.inr rfl
    | _ => cases h

/-- The expansion of arguments pairs their object with its nudged copies, which differ in listed
numbers at most. It is data, and lowering it gives what the preference is lowered to, without an
event. -/
theorem expand_nudges_listed (args : List Expr) (expansion : Expansion)
    (h : expand args = .ok expansion) :
    ∃ (fields up down : List (String × Expr)) (names : List String),
      (args = [.object fields] ∧ names = fields.map Prod.fst ∨
        args = [.object fields, .array (names.map fun name => .literal (.string name))]) ∧
      expansion.toExpr = (if fields.any (·.2.isNumeral) then
          .spread [.array [.object fields, .object up], .array [.object fields, .object down]]
        else .array [.object fields, .object up]) ∧
      List.Forall₂ (Nudged names .up) fields up ∧
      List.Forall₂ (Nudged names .down) fields down ∧
      up.map Prod.fst = fields.map Prod.fst ∧ down.map Prod.fst = fields.map Prod.fst ∧
      (∀ i : Nat, up[i]? ≠ down[i]? →
        ∃ key v, fields[i]? = some (key, .literal (.number v)) ∧ key ∈ names) ∧
      (∀ node ∈ expansion.toExpr.nodes, node.isData = true) ∧
      expansion.toExpr.lower = .ok expansion.lower ∧
      expansion.toExpr.progress = .done ∧
      (Expr.call (.name callName) args).lower = expansion.toExpr.lower := by
  have hcall : (Expr.call (.name callName) args).lower = expansion.toExpr.lower := by
    rw [Expr.lower_preference rfl, h, expansion.lower_toExpr]
    rfl
  obtain ⟨fields, list, names, found, rfl, hnames, hfound, rfl⟩ :=
    (expand_eq_ok_iff args expansion).1 h
  have hconstants : ∀ field ∈ found, IsConstant (.literal field.2) := by
    have hfields := (exists_constants_iff fields).1 ⟨found, hfound⟩
    rw [eq_map_of_constants hfound, List.forall_mem_map] at hfields
    exact hfields
  have hup := forall₂_nudge hconstants names .up
  have hdown := forall₂_nudge hconstants names .down
  rw [← show fields = found.exprs from eq_map_of_constants hfound] at hup hdown
  refine ⟨fields, _, _, names, ?_, ?_, hup, hdown, keys_eq_of_forall₂ hup,
    keys_eq_of_forall₂ hdown, fun i hi => number_of_getElem?_ne hup hdown hi,
    Expansion.isData_nodes _, Expansion.lower_toExpr _, Expansion.progress_toExpr _, hcall⟩
  · rcases list_of_nudgedNames hnames with ⟨rfl, hall⟩ | rfl
    · exact Or.inl ⟨rfl, hall⟩
    · exact Or.inr rfl
  · rw [any_isNumeral_of_constants hfound, expansionOf, eq_map_of_constants hfound]
    cases found.any (isNumber ·.2) <;> rfl

/-- An object may repeat a key, and a list may hold names that the object lacks: here the listed
numbers are zero, which moves by one, and two, which moves by six. -/
theorem expand_nudges_listed_warmth :
    ∃ fields up down : List (String × Expr),
      fields = [("polite", .literal (.boolean true)), ("warmth", .literal (.number (.ofInt 0))),
        ("warmth", .literal (.number (.ofInt 2)))] ∧
      up = [("polite", .literal (.boolean true)), ("warmth", .literal (.number (.ofInt 1))),
        ("warmth", .literal (.number (.ofInt 8)))] ∧
      down = [("polite", .literal (.boolean true)), ("warmth", .literal (.number (.ofInt (-1)))),
        ("warmth", .literal (.number (.ofInt (-4))))] ∧
      List.Forall₂ (Nudged ["warmth", "calm"] .up) fields up ∧
      List.Forall₂ (Nudged ["warmth", "calm"] .down) fields down ∧
      (Expr.call (.name callName) [.object fields,
        .array [.literal (.string "warmth"), .literal (.string "calm")]]).lower =
        (Expr.spread [.array [.object fields, .object up],
          .array [.object fields, .object down]]).lower := by
  have hexpand : expand [.object [("polite", .literal (.boolean true)),
        ("warmth", .literal (.number (.ofInt 0))), ("warmth", .literal (.number (.ofInt 2)))],
      .array [.literal (.string "warmth"), .literal (.string "calm")]] =
      .ok (expansionOf ["warmth", "calm"] [("polite", .boolean true),
        ("warmth", .number (.ofInt 0)), ("warmth", .number (.ofInt 2))]) := rfl
  obtain ⟨fields, up, down, names, hargs, hexpr, hup, hdown, -, -, -, -, -, -, hlower⟩ :=
    expand_nudges_listed _ _ hexpand
  rcases hargs with ⟨hargs, -⟩ | hargs
  · cases hargs
  · simp only [List.cons.injEq, Expr.object.injEq, Expr.array.injEq, and_true] at hargs
    obtain ⟨rfl, hnames⟩ := hargs
    have hinj : Function.Injective fun name : String => Expr.literal (.string name) :=
      fun _ _ h => Literal.string.inj (Expr.literal.inj h)
    obtain rfl : ["warmth", "calm"] = names := List.map_injective_iff.2 hinj hnames
    rw [hexpr] at hlower
    have hzero : (Double.ofInt 0).isZero = true := by
      rw [Double.ofInt_zero]
      rfl
    obtain ⟨hzeroUp, hzeroDown⟩ := Double.nudge_of_isZero hzero
    obtain ⟨htwoUp, htwoDown⟩ := @Double.nudge_ofInt 2 (by decide) (by decide)
    have hcopy {direction : Direction} {copy : List (String × Expr)}
        (h : List.Forall₂ (Nudged ["warmth", "calm"] direction)
          [("polite", .literal (.boolean true)), ("warmth", .literal (.number (.ofInt 0))),
            ("warmth", .literal (.number (.ofInt 2)))] copy) :
        copy = [("polite", .literal (.boolean true)),
          ("warmth", .literal (.number ((Double.ofInt 0).nudge direction))),
          ("warmth", .literal (.number ((Double.ofInt 2).nudge direction)))] :=
      @eq_nudge_of_forall₂ _ _ [("polite", .boolean true), ("warmth", .number (.ofInt 0)),
        ("warmth", .number (.ofInt 2))] _ h
    refine ⟨_, up, down, rfl, ?_, ?_, hup, hdown, hlower⟩
    · rw [hcopy hup, hzeroUp, htwoUp]
      rfl
    · rw [hcopy hdown, hzeroDown, htwoDown]
      rfl

end Preference

end Dialogue
