import Dialogue.Proofs.Program.Supported

/-!
# Lists of expressions

A list is lowered element by element, and what its elements become is put together in order. Most
expressions add the one value that they are lowered to. A spread, and a preference with a number,
are lowered to an array and add the elements of that array instead, and it does not matter whether a
preference is met in a list or stands alone (`Expr.lowerElements_cons`).

`Splicing` states this as a law of any function that lowers lists. `Expr.lower_splicing` shows it of
list literals and of the arguments of a `run`, whatever else belongs to that `run`.
-/

namespace Dialogue

/-- The law of lowering lists: `lower` takes a list of expressions to the `result` made of their
elements, where `value` is what one expression is lowered to and `joins` tells whether it adds the
elements of an array. -/
structure Splicing (lower : List Expr → Except Problem Json) (value : Expr → Except Problem Json)
    (joins : Expr → Bool) (result : List Json → Json) : Prop where
  /-- What a list is lowered to is made of elements. -/
  exists_elements : ∀ {es j}, lower es = .ok j → ∃ elements, j = result elements
  /-- Two lists in a row are lowered exactly if both are. -/
  append_iff : ∀ xs ys, (∃ j, lower (xs ++ ys) = .ok j) ↔
    (∃ j, lower xs = .ok j) ∧ ∃ j, lower ys = .ok j
  /-- Their elements are those of the first list and then those of the second. -/
  append : ∀ {xs ys us vs}, lower xs = .ok (result us) → lower ys = .ok (result vs) →
    lower (xs ++ ys) = .ok (result (us ++ vs))
  /-- A list of one expression has the problem of that expression and no other. -/
  single_error_iff : ∀ e problem, lower [e] = .error problem ↔ value e = .error problem
  /-- An expression that joins the list is lowered to an array and adds its elements. -/
  single_joined : ∀ {e j}, joins e = true → value e = .ok j →
    ∃ elements, j = .array elements ∧ lower [e] = .ok (result elements)
  /-- Any other expression adds the value that it is lowered to. -/
  single_kept : ∀ {e j}, joins e = false → value e = .ok j → lower [e] = .ok (result [j])

/-! ## Elements -/

theorem Expr.lowerElements_append (xs ys : List Expr) :
    Expr.lowerElements (xs ++ ys) = Expr.lowerElements xs >>= fun us =>
      Expr.lowerElements ys >>= fun vs => .ok (us ++ vs) := by
  induction xs with
  | nil =>
    rw [List.nil_append, Expr.lowerElements]
    cases Expr.lowerElements ys with
    | error problem => rfl
    | ok vs => rfl
  | cons e xs ih =>
    rw [List.cons_append, Expr.lowerElements_cons, Expr.lowerElements_cons, ih]
    cases e.lower with
    | error problem => rfl
    | ok j =>
      cases Expr.lowerElements xs with
      | error problem => rfl
      | ok us =>
        cases Expr.lowerElements ys with
        | error problem => rfl
        | ok vs => exact congrArg Except.ok (List.append_assoc _ _ _).symm

theorem Expr.lowerElements_singleton (e : Expr) :
    Expr.lowerElements [e] = e.lower >>= fun j => .ok (e.joined j) := by
  rw [Expr.lowerElements_cons]
  cases e.lower with
  | error problem => rfl
  | ok j => exact congrArg Except.ok (List.append_nil _)

/-- Whatever makes a result of the elements of expressions, changed one by one, obeys the law. -/
theorem Splicing.of_lowerElements {lower : List Expr → Except Problem Json} {change : Expr → Expr}
    {result : List Json → Json} (hresult : Function.Injective result)
    (hlower : ∀ es, lower es = Expr.lowerElements (es.map change) >>= fun values =>
      .ok (result values)) :
    Splicing lower (fun e => (change e).lower) (fun e => (change e).splices) result := by
  have hok (es : List Expr) (j : Json) : lower es = .ok j ↔
      ∃ values, Expr.lowerElements (es.map change) = .ok values ∧ result values = j := by
    simp only [hlower, bind_eq_ok_iff, Except.ok.injEq]
  have happend (xs ys : List Expr) (values : List Json) :
      Expr.lowerElements ((xs ++ ys).map change) = .ok values ↔
        ∃ us, Expr.lowerElements (xs.map change) = .ok us ∧
          ∃ vs, Expr.lowerElements (ys.map change) = .ok vs ∧ us ++ vs = values := by
    simp only [List.map_append, Expr.lowerElements_append, bind_eq_ok_iff, Except.ok.injEq]
  have hsingle (e : Expr) {j : Json} (hj : (change e).lower = .ok j) :
      lower [e] = .ok (result ((change e).joined j)) := by
    rw [hlower, List.map_singleton, Expr.lowerElements_singleton, hj]
    rfl
  refine ⟨?elements, ?appendIff, ?append, ?error, ?joined, ?kept⟩
  case elements =>
    intro es j h
    obtain ⟨values, -, rfl⟩ := (hok es j).1 h
    exact ⟨values, rfl⟩
  case appendIff =>
    intro xs ys
    simp only [hok, happend]
    constructor
    · rintro ⟨_, _, ⟨us, hus, vs, hvs, -⟩, -⟩
      exact ⟨⟨_, us, hus, rfl⟩, _, vs, hvs, rfl⟩
    · rintro ⟨⟨_, us, hus, -⟩, _, vs, hvs, -⟩
      exact ⟨_, us ++ vs, ⟨us, hus, vs, hvs, rfl⟩, rfl⟩
  case append =>
    intro xs ys us vs hxs hys
    obtain ⟨us', hus, heq⟩ := (hok xs _).1 hxs
    obtain ⟨vs', hvs, heq'⟩ := (hok ys _).1 hys
    obtain rfl := hresult heq
    obtain rfl := hresult heq'
    exact (hok _ _).2 ⟨us' ++ vs', (happend xs ys _).2 ⟨us', hus, vs', hvs, rfl⟩, rfl⟩
  case error =>
    intro e problem
    rw [hlower, List.map_singleton, Expr.lowerElements_singleton]
    cases (change e).lower with
    | error other => exact Iff.rfl
    | ok j =>
      constructor
      · intro h
        cases h
      · intro h
        cases h
  case joined =>
    intro e j he hj
    have hread := hsingle e hj
    unfold Expr.joined at hread
    rw [if_pos he] at hread
    exact ⟨j.elements, Expr.eq_array_of_splices he hj, hread⟩
  case kept =>
    intro e j he hj
    have hread := hsingle e hj
    unfold Expr.joined at hread
    rw [if_neg (Bool.eq_false_iff.1 he)] at hread
    exact hread

/-! ## Arguments -/

/-- The start of another program with given arguments as JSON, and the steps that follow it. -/
def Json.start (name : Json) (steps args : List Json) : Json :=
  .block (.object [("@run", name), ("args", .list args)] :: steps) []

theorem Json.start_inj {name name' : Json} {steps steps' args args' : List Json}
    (h : Json.start name steps args = Json.start name' steps' args') :
    name = name' ∧ args = args' ∧ steps = steps' := by
  simpa [Json.start, Json.block, Json.list, and_assoc] using h

/-- A `run` is lowered from its name, then its arguments, then what handles its result. -/
theorem Statement.exists_lower_run (scope : Scope) (name : Expr) (result : Option String)
    (choice : Option (Fork Statement)) :
    ∃ handler : Except Problem (List Json), ∀ args,
      (Statement.run name args result choice).lower scope = name.lowerIn scope >>= fun n =>
        Expr.lowerElements (args.map (Expr.mapNames scope)) >>= fun values =>
          handler >>= fun steps => .ok (Json.start n steps values) := by
  have hcall (args : List Expr) : name.lowerCallIn scope args = name.lowerIn scope >>= fun n =>
      Expr.lowerElements (args.map (Expr.mapNames scope)) >>= fun values =>
        .ok (.object [("@run", n), ("args", .list values)]) := by
    rw [Expr.lowerCallIn, Expr.mapNamesOfList_eq_map]
    simp only [Expr.lowerList, bind_assoc]
    rfl
  cases result with
  | none =>
    refine ⟨.ok [], fun args => ?_⟩
    simp only [Statement.lower, hcall, bind_assoc]
    rfl
  | some r =>
    cases choice with
    | none =>
      refine ⟨.ok [.assignReturn (scope r)], fun args => ?_⟩
      simp only [Statement.lower, hcall, bind_assoc]
      rfl
    | some choice =>
      refine ⟨Fork.lower (scope.bind (scope r) Scope.returnName)
        [("await", .array [.string "return"])] choice >>= fun step => .ok [step], fun args => ?_⟩
      simp only [Statement.lower, hcall, bind_assoc]
      rfl

/-- What a `run` with arguments is lowered to, given what it is lowered to without any. -/
theorem Statement.lower_run_of_nil {scope : Scope} {name : Expr} {result : Option String}
    {choice : Option (Fork Statement)} {n : Json} {steps : List Json}
    (hnil : (Statement.run name [] result choice).lower scope = .ok (Json.start n steps []))
    (args : List Expr) :
    (Statement.run name args result choice).lower scope =
      Expr.lowerElements (args.map (Expr.mapNames scope)) >>= fun values =>
        .ok (Json.start n steps values) := by
  obtain ⟨handler, hrun⟩ := Statement.exists_lower_run scope name result choice
  simp only [hrun, bind_eq_ok_iff, Except.ok.injEq] at hnil
  obtain ⟨n', hname, values, -, steps', hhandler, heq⟩ := hnil
  obtain ⟨rfl, -, rfl⟩ := Json.start_inj heq
  rw [hrun, hname, hhandler]
  rfl

/-- A `run` that is lowered with some arguments is lowered without any. -/
theorem Statement.exists_lower_run_nil {scope : Scope} {name : Expr} {args : List Expr}
    {result : Option String} {choice : Option (Fork Statement)} {j : Json}
    (h : (Statement.run name args result choice).lower scope = .ok j) :
    ∃ n steps, (Statement.run name [] result choice).lower scope =
      .ok (Json.start n steps []) := by
  obtain ⟨handler, hrun⟩ := Statement.exists_lower_run scope name result choice
  simp only [hrun, bind_eq_ok_iff] at h
  obtain ⟨n, hname, values, -, steps, hhandler, -⟩ := h
  refine ⟨n, steps, ?_⟩
  rw [hrun, hname, hhandler]
  rfl

/-- Lists are lowered by a homomorphism: two lists in a row become the elements of both, a spread or
a preference with a number becomes the elements of the array that it is lowered to, and any other
expression the value that it is lowered to. This holds of list literals, and in any scope of the
arguments of a `run`, where the name, the result and the branches stay as they are. -/
theorem Expr.lower_splicing :
    (∀ es, (Expr.array es).lower = Expr.lowerList es) ∧
    Splicing Expr.lowerList Expr.lower Expr.splices Json.list ∧
    ∀ (scope : Scope) (name : Expr) (result : Option String) (choice : Option (Fork Statement)),
      (∀ args j, (Statement.run name args result choice).lower scope = .ok j →
        ∃ n steps, (Statement.run name [] result choice).lower scope =
          .ok (Json.start n steps [])) ∧
      ∀ n steps, (Statement.run name [] result choice).lower scope = .ok (Json.start n steps []) →
        Splicing (fun args => (Statement.run name args result choice).lower scope)
          (fun e => e.lowerIn scope) (fun e => (e.mapNames scope).splices)
          (Json.start n steps) := by
  have hlist : Function.Injective Json.list := by
    intro us vs h
    simpa [Json.list] using h
  have hliteral (es : List Expr) : Expr.lowerList es =
      Expr.lowerElements (es.map id) >>= fun values => .ok (Json.list values) := by
    rw [List.map_id]
    rfl
  refine ⟨fun es => by rw [Expr.lower, Expr.lowerList],
    Splicing.of_lowerElements hlist hliteral, ?_⟩
  intro scope name result choice
  refine ⟨fun args j h => Statement.exists_lower_run_nil h, ?_⟩
  intro n steps hnil
  have hstart : Function.Injective (Json.start n steps) := fun us vs h => (Json.start_inj h).2.1
  exact Splicing.of_lowerElements hstart (Statement.lower_run_of_nil hnil)

/-- A spread adds its elements, and a preference of switches the one pair that it is. -/
theorem Expr.lower_splicing_run :
    (Statement.run (.name "f") [.spread [.name "a", .name "null"],
      .call (.name "pref") [.object [("x", .literal (.boolean true))]]] none none).lower id =
    .ok (Json.start (.string "f") [] [.string "a", .null,
      .list [.object [("`x`", .bool true)], .object [("`x`", .bool false)]]]) := by
  have hlaw := (Expr.lower_splicing.2.2 id (.name "f") none none).2 (.string "f") [] rfl
  have hspread :
      (Statement.run (.name "f") [.spread [.name "a", .name "null"]] none none).lower id =
      .ok (Json.start (.string "f") [] [.string "a", .null]) := by
    obtain ⟨elements, heq, h⟩ := hlaw.single_joined (e := .spread [.name "a", .name "null"]) rfl rfl
    cases heq
    exact h
  exact hlaw.append hspread (hlaw.single_kept rfl rfl)

end Dialogue
