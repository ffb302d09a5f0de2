import Dialogue.Proofs.Program.Fields
import Dialogue.Proofs.Program.References

/-!
# Where identifiers are emitted

An identifier of an expression is emitted at one place of its JSON, or at none: the words `exists`
and `pref` stand for operations, a test overlooks all arguments but the first, a preference has no
names in it, and a field gives way to a later one with its key. `Expr.occurrences` has the
identifiers of an expression in order, each with its place, and `Expr.found_occurrences` says that
each is found there, by its name.
-/

namespace Dialogue

/-! ## Places in JSON -/

namespace Json

/-- A step into a JSON value: to an element of an array, or to a member of an object. -/
inductive Step where
  | index (n : Nat)
  | member (key : String)
  deriving DecidableEq

/-- The value one step into a value. -/
def step? : Step → Json → Option Json
  | .index n, .array elements => elements[n]?
  | .index _, _ => none
  | .member key, value => value.member? key

/-- The value at the end of a path of steps. -/
def at? : List Step → Json → Option Json
  | [], value => some value
  | step :: path, value => (value.step? step).bind (at? path)

theorem at?_append (path path' : List Step) (value : Json) :
    value.at? (path ++ path') = (value.at? path).bind (at? path') := by
  induction path generalizing value with
  | nil => rfl
  | cons step path ih =>
    rw [List.cons_append, at?, at?]
    cases value.step? step with
    | none => rfl
    | some inner => exact ih inner

theorem at?_cons {step : Step} {value inner : Json} (h : value.step? step = some inner)
    (path : List Step) : value.at? (step :: path) = inner.at? path := by
  rw [at?, h, Option.bind_some]

/-- The element behind a front of an array. -/
theorem step?_array (front : List Json) (value : Json) (back : List Json) :
    (array (front ++ value :: back)).step? (.index front.length) = some value := by
  rw [step?, List.getElem?_append_right (Nat.le_refl _), Nat.sub_self, List.getElem?_cons_zero]

theorem at?_array (front : List Json) (value : Json) (back : List Json) (path : List Step) :
    (array (front ++ value :: back)).at? (.index front.length :: path) = value.at? path :=
  at?_cons (step?_array front value back) path

end Json

/-- An identifier of an expression, with its place in the JSON of the expression if it has one. -/
structure Occurrence where
  name : String
  path : Option (List Json.Step)

namespace Occurrence

/-- The occurrence in a value that holds the JSON one step deeper. -/
def under (step : Json.Step) (occurrence : Occurrence) : Occurrence :=
  { occurrence with path := occurrence.path.map (step :: ·) }

/-- The occurrence in an expression that is not emitted. -/
def dropped (occurrence : Occurrence) : Occurrence := { occurrence with path := none }

/-- An occurrence is found in a value, if it has a place: its name stands there. -/
def Found (value : Json) (occurrence : Occurrence) : Prop :=
  ∀ path, occurrence.path = some path → value.at? path = some (lowerName occurrence.name)

variable {occurrence : Occurrence} {occurrences : List Occurrence} {value inner : Json}
  {step : Json.Step}

theorem Found.under (h : occurrence.Found inner) (hstep : value.step? step = some inner) :
    (occurrence.under step).Found value := by
  intro path hpath
  obtain ⟨deeper, hdeeper, rfl⟩ := Option.map_eq_some_iff.1 hpath
  rw [Json.at?_cons hstep]
  exact h deeper hdeeper

theorem found_map_under (h : ∀ o ∈ occurrences, o.Found inner)
    (hstep : value.step? step = some inner) :
    ∀ o ∈ occurrences.map (Occurrence.under step), o.Found value := by
  intro o ho
  obtain ⟨deeper, hdeeper, rfl⟩ := List.mem_map.1 ho
  exact (h deeper hdeeper).under hstep

theorem found_map_dropped (occurrences : List Occurrence) (value : Json) :
    ∀ o ∈ occurrences.map Occurrence.dropped, o.Found value := by
  intro o ho path hpath
  obtain ⟨deeper, -, rfl⟩ := List.mem_map.1 ho
  cases hpath

theorem map_name_under (step : Json.Step) (occurrences : List Occurrence) :
    (occurrences.map (under step)).map name = occurrences.map name := by
  rw [List.map_map]
  rfl

theorem map_name_dropped (occurrences : List Occurrence) :
    (occurrences.map dropped).map name = occurrences.map name := by
  rw [List.map_map]
  rfl

end Occurrence

/-! ## The identifiers of an expression -/

/-- How many elements an expression that is no spread adds to a list. -/
def Expr.width (e : Expr) : Nat := if e.splices then 2 else 1

mutual

/-- The identifiers of an expression, in the order of its nodes, each with its place. -/
def Expr.occurrences : Expr → List Occurrence
  | .binary _ left right =>
    left.occurrences.map (.under (.index 1)) ++ right.occurrences.map (.under (.index 2))
  | .not operand => operand.occurrences.map (.under (.index 1))
  | .call callee args =>
    if callee.isName "exists" then
      callee.occurrences.map .dropped ++ Expr.occurrencesOfTest args
    else if callee.isName Preference.callName then
      (callee.occurrences ++ Expr.occurrencesEach 1 args).map .dropped
    else callee.occurrences.map (.under (.index 0)) ++ Expr.occurrencesEach 1 args
  | .member target property =>
    target.occurrences.map (.under (.index 2)) ++ property.occurrences.map (.under (.index 1))
  | .name x => [⟨x, some []⟩]
  | .literal _ => []
  | .array elements => Expr.occurrencesOfElements 1 elements
  | .object fields => Expr.occurrencesOfFields fields
  | .spread elements => Expr.occurrencesEach 0 elements

/-- The identifiers in the arguments of a test. -/
def Expr.occurrencesOfTest : List Expr → List Occurrence
  | [] => []
  | e :: es =>
    e.occurrences.map (.under (.index 1)) ++ (Expr.occurrencesEach 0 es).map .dropped

/-- The identifiers in expressions that become elements of an array, from an index on. -/
def Expr.occurrencesEach (index : Nat) : List Expr → List Occurrence
  | [] => []
  | e :: es => e.occurrences.map (.under (.index index)) ++ Expr.occurrencesEach (index + 1) es

/-- The identifiers in the elements of a list, which spreads and preferences join. -/
def Expr.occurrencesOfElements (index : Nat) : List Expr → List Occurrence
  | [] => []
  | .spread elements :: es =>
    Expr.occurrencesEach index elements ++
      Expr.occurrencesOfElements (index + elements.length) es
  | e :: es =>
    e.occurrences.map (.under (.index index)) ++
      Expr.occurrencesOfElements (index + e.width) es

/-- The identifiers in the fields of an object, where the last value of a key wins. -/
def Expr.occurrencesOfFields : List (String × Expr) → List Occurrence
  | [] => []
  | (key, e) :: fields =>
    (if key ∈ fields.map Prod.fst then e.occurrences.map .dropped
      else e.occurrences.map (.under (.member (quoted key)))) ++
      Expr.occurrencesOfFields fields

end

theorem Expr.occurrencesOfElements_cons {e : Expr} (h : ∀ elements, e ≠ .spread elements)
    (index : Nat) (es : List Expr) :
    Expr.occurrencesOfElements index (e :: es) =
      e.occurrences.map (.under (.index index)) ++
        Expr.occurrencesOfElements (index + e.width) es := by
  rw [Expr.occurrencesOfElements]
  exact h

mutual

/-- The occurrences of an expression are its identifiers, in order. -/
theorem Expr.map_name_occurrences : ∀ e : Expr,
    e.occurrences.map Occurrence.name = e.identifiers
  | .binary op left right => by
    simp only [Expr.occurrences, List.map_append, Occurrence.map_name_under,
      left.map_name_occurrences, right.map_name_occurrences, Expr.identifiers_binary]
  | .not operand => by
    rw [Expr.occurrences, Occurrence.map_name_under, operand.map_name_occurrences]
    rfl
  | .call callee args => by
    rw [Expr.occurrences, Expr.identifiers_call, ← callee.map_name_occurrences,
      ← Expr.map_name_occurrencesEach 1 args]
    split
    · rw [List.map_append, Occurrence.map_name_dropped, Expr.map_name_occurrencesOfTest,
        Expr.map_name_occurrencesEach]
    split
    · rw [Occurrence.map_name_dropped, List.map_append]
    · rw [List.map_append, Occurrence.map_name_under]
  | .member target property => by
    simp only [Expr.occurrences, List.map_append, Occurrence.map_name_under,
      target.map_name_occurrences, property.map_name_occurrences, Expr.identifiers_member]
  | .name _ => rfl
  | .literal _ => rfl
  | .array elements => Expr.map_name_occurrencesOfElements 1 elements
  | .object fields => Expr.map_name_occurrencesOfFields fields
  | .spread elements => Expr.map_name_occurrencesEach 0 elements

theorem Expr.map_name_occurrencesOfTest : ∀ args : List Expr,
    (Expr.occurrencesOfTest args).map Occurrence.name = Expr.identifiersOfList args
  | [] => rfl
  | e :: es => by
    rw [Expr.occurrencesOfTest, List.map_append, Occurrence.map_name_under,
      Occurrence.map_name_dropped, e.map_name_occurrences, Expr.map_name_occurrencesEach,
      Expr.identifiersOfList_cons]

theorem Expr.map_name_occurrencesEach (index : Nat) : ∀ es : List Expr,
    (Expr.occurrencesEach index es).map Occurrence.name = Expr.identifiersOfList es
  | [] => rfl
  | e :: es => by
    rw [Expr.occurrencesEach, List.map_append, Occurrence.map_name_under, e.map_name_occurrences,
      Expr.map_name_occurrencesEach, Expr.identifiersOfList_cons]

theorem Expr.map_name_occurrencesOfElements (index : Nat) : ∀ es : List Expr,
    (Expr.occurrencesOfElements index es).map Occurrence.name = Expr.identifiersOfList es
  | [] => rfl
  | e :: es => by
    have he := e.map_name_occurrences
    cases e with
    | spread elements =>
      rw [Expr.occurrencesOfElements, List.map_append, Expr.map_name_occurrencesEach index elements,
        Expr.map_name_occurrencesOfElements _ es, Expr.identifiersOfList_cons]
      rfl
    | _ =>
      rw [Expr.occurrencesOfElements_cons, List.map_append, Occurrence.map_name_under, he,
        Expr.map_name_occurrencesOfElements _ es, Expr.identifiersOfList_cons]
      nofun

theorem Expr.map_name_occurrencesOfFields : ∀ fields : List (String × Expr),
    (Expr.occurrencesOfFields fields).map Occurrence.name = Expr.identifiersOfFields fields
  | [] => rfl
  | (key, e) :: fields => by
    rw [Expr.occurrencesOfFields, List.map_append, Expr.map_name_occurrencesOfFields fields,
      Expr.identifiersOfFields_cons, ← e.map_name_occurrences]
    split
    · rw [Occurrence.map_name_dropped]
    · rw [Occurrence.map_name_under]

end

/-! ## Each identifier at its place -/

theorem lookup_reverse_of_not_mem {key : String} {e : Expr} {before fields : List (String × Expr)}
    (h : key ∉ fields.map Prod.fst) :
    (before ++ (key, e) :: fields).reverse.lookup key = some e := by
  have hnone : fields.reverse.lookup key = none := by
    rw [List.lookup_eq_none_iff]
    intro field hfield
    rw [bne_iff_ne]
    rintro rfl
    exact h (List.mem_map_of_mem (List.mem_reverse.1 hfield))
  rw [List.reverse_append, List.reverse_cons, List.append_assoc, List.lookup_append, hnone,
    Option.none_or, List.singleton_append, List.lookup_cons_self]

theorem Expr.length_of_lowerEach {es : List Expr} {values : List Json}
    (h : Expr.lowerEach es = .ok values) : values.length = es.length := by
  induction es generalizing values with
  | nil =>
    cases h
    rfl
  | cons e es ih =>
    simp only [Expr.lowerEach, bind_eq_ok_iff, Except.ok.injEq] at h
    obtain ⟨value, -, others, hothers, rfl⟩ := h
    rw [List.length_cons, List.length_cons, ih hothers]

/-- What joins a list and is no spread is a call. -/
theorem Expr.exists_call_of_splices {e : Expr} (h : e.splices = true)
    (hspread : ∀ elements, e ≠ .spread elements) : ∃ callee args, e = .call callee args := by
  cases e with
  | spread elements => exact absurd rfl (hspread elements)
  | call callee args => exact ⟨callee, args, rfl⟩
  | _ => cases h

/-- A preference with a number comes to two pairs, and none of its identifiers is emitted. -/
theorem Expr.joined_of_preference {callee : Expr} {args : List Expr} {j : Json}
    (h : (Expr.call callee args).splices = true) (hj : (Expr.call callee args).lower = .ok j) :
    (∃ first second, (Expr.call callee args).joined j = [first, second]) ∧
      (Expr.call callee args).occurrences =
        (callee.occurrences ++ Expr.occurrencesEach 1 args).map .dropped := by
  obtain ⟨hname, hnumber⟩ := Bool.and_eq_true_iff.1 h
  have hexists : callee.isName "exists" = false := by
    rw [Expr.isName_eq_true_iff.1 hname]
    decide
  constructor
  · rw [Expr.lower_preference hname] at hj
    obtain ⟨expansion, hexpand, heq⟩ := bind_eq_ok_iff.1 hj
    cases heq
    rw [Expr.joined, h]
    rcases Preference.expand_cases hexpand with ⟨-, base, up, down, rfl⟩ | ⟨hnone, -⟩
    · exact ⟨_, _, rfl⟩
    · exact absurd (hnone.symm.trans hnumber) Bool.false_ne_true
  · rw [Expr.occurrences, hexists, hname]
    rfl

/-- An element that is no spread comes to as many values as its width says, and its identifiers
are found in the first of them. -/
theorem Expr.exists_joined {e : Expr} {value : Json} (hvalue : e.lower = .ok value)
    (he : ∀ o ∈ e.occurrences, o.Found value) (hspread : ∀ elements, e ≠ .spread elements) :
    ∃ first others, e.joined value = first :: others ∧ others.length + 1 = e.width ∧
      ∀ o ∈ e.occurrences, o.Found first := by
  cases hsplices : e.splices with
  | false =>
    rw [Expr.joined, Expr.width, hsplices]
    exact ⟨value, [], rfl, rfl, he⟩
  | true =>
    obtain ⟨callee, args, rfl⟩ := Expr.exists_call_of_splices hsplices hspread
    obtain ⟨⟨first, second, hpairs⟩, hdropped⟩ := Expr.joined_of_preference hsplices hvalue
    rw [Expr.width, hsplices, hdropped]
    exact ⟨first, [second], hpairs, rfl, Occurrence.found_map_dropped _ first⟩

mutual

/-- An identifier with a place in the JSON of an expression is found there. -/
theorem Expr.found_occurrences : ∀ (e : Expr) {value : Json}, e.lower = .ok value →
    ∀ o ∈ e.occurrences, o.Found value
  | .binary op left right, value, h => by
    simp only [Expr.lower, bind_eq_ok_iff, Except.ok.injEq] at h
    obtain ⟨l, hl, r, hr, rfl⟩ := h
    rw [Expr.occurrences, List.forall_mem_append]
    exact ⟨Occurrence.found_map_under (left.found_occurrences hl) rfl,
      Occurrence.found_map_under (right.found_occurrences hr) rfl⟩
  | .not operand, value, h => by
    simp only [Expr.lower, bind_eq_ok_iff, Except.ok.injEq] at h
    obtain ⟨inner, hinner, rfl⟩ := h
    exact Occurrence.found_map_under (operand.found_occurrences hinner) rfl
  | .call callee args, value, h => by
    rw [Expr.lower] at h
    rw [Expr.occurrences]
    split at h
    · rename_i hexists
      rw [if_pos hexists, List.forall_mem_append]
      exact ⟨Occurrence.found_map_dropped _ _, Expr.found_occurrencesOfTest args h⟩
    rename_i hexists
    rw [if_neg hexists]
    split at h
    · rename_i hname
      rw [if_pos hname]
      exact Occurrence.found_map_dropped _ _
    rename_i hname
    simp only [bind_eq_ok_iff, Except.ok.injEq] at h
    obtain ⟨head, hhead, values, hvalues, rfl⟩ := h
    rw [if_neg hname, List.forall_mem_append]
    refine ⟨Occurrence.found_map_under (callee.found_occurrences hhead) rfl, ?_⟩
    have hargs := Expr.found_occurrencesEach args hvalues [head] []
    rwa [List.append_nil] at hargs
  | .member target property, value, h => by
    simp only [Expr.lower, bind_eq_ok_iff, Except.ok.injEq] at h
    obtain ⟨key, hkey, root, hroot, rfl⟩ := h
    rw [Expr.occurrences, List.forall_mem_append]
    exact ⟨Occurrence.found_map_under (target.found_occurrences hroot) rfl,
      Occurrence.found_map_under (property.found_occurrences hkey) rfl⟩
  | .name x, value, h => by
    cases h
    rw [Expr.occurrences, List.forall_mem_singleton]
    rintro path hpath
    cases hpath
    rfl
  | .literal _, _, _ => nofun
  | .array elements, value, h => by
    simp only [Expr.lower, bind_eq_ok_iff, Except.ok.injEq] at h
    obtain ⟨values, hvalues, rfl⟩ := h
    exact Expr.found_occurrencesOfElements elements hvalues [.string ""]
  | .object fields, value, h => by
    simp only [Expr.lower, bind_eq_ok_iff, Except.ok.injEq] at h
    obtain ⟨members, hmembers, rfl⟩ := h
    exact Expr.found_occurrencesOfFields fields [] (LastWins.nil.of_lowerFields hmembers)
  | .spread elements, value, h => by
    simp only [Expr.lower, bind_eq_ok_iff, Except.ok.injEq] at h
    obtain ⟨values, hvalues, rfl⟩ := h
    have helements := Expr.found_occurrencesEach elements hvalues [] []
    rwa [List.append_nil] at helements

theorem Expr.found_occurrencesOfTest : ∀ (args : List Expr) {value : Json},
    Expr.lowerExists args = .ok value → ∀ o ∈ Expr.occurrencesOfTest args, o.Found value
  | [], _, h => by cases h
  | e :: es, value, h => by
    simp only [Expr.lowerExists, bind_eq_ok_iff, Except.ok.injEq] at h
    obtain ⟨inner, hinner, rfl⟩ := h
    rw [Expr.occurrencesOfTest, List.forall_mem_append]
    exact ⟨Occurrence.found_map_under (e.found_occurrences hinner) rfl,
      Occurrence.found_map_dropped _ _⟩

theorem Expr.found_occurrencesEach : ∀ (es : List Expr) {values : List Json},
    Expr.lowerEach es = .ok values → ∀ front back : List Json,
    ∀ o ∈ Expr.occurrencesEach front.length es, o.Found (.array (front ++ (values ++ back)))
  | [], _, _, _, _ => nofun
  | e :: es, values, h, front, back => by
    simp only [Expr.lowerEach, bind_eq_ok_iff, Except.ok.injEq] at h
    obtain ⟨value, hvalue, others, hothers, rfl⟩ := h
    rw [Expr.occurrencesEach, List.forall_mem_append]
    refine ⟨Occurrence.found_map_under (e.found_occurrences hvalue)
      (Json.step?_array front value (others ++ back)), ?_⟩
    have hes := Expr.found_occurrencesEach es hothers (front ++ [value]) back
    rw [List.length_append, List.append_assoc] at hes
    exact hes

theorem Expr.found_occurrencesOfElements : ∀ (es : List Expr) {values : List Json},
    Expr.lowerElements es = .ok values → ∀ front : List Json,
    ∀ o ∈ Expr.occurrencesOfElements front.length es, o.Found (.array (front ++ values))
  | [], _, _, _ => nofun
  | e :: es, values, h, front => by
    simp only [Expr.lowerElements_cons, bind_eq_ok_iff, Except.ok.injEq] at h
    obtain ⟨value, hvalue, others, hothers, rfl⟩ := h
    have he := e.found_occurrences hvalue
    have hes := Expr.found_occurrencesOfElements es hothers (front ++ e.joined value)
    rw [List.length_append, List.append_assoc] at hes
    cases e with
    | spread elements =>
      simp only [Expr.lower, bind_eq_ok_iff, Except.ok.injEq] at hvalue
      obtain ⟨values, hvalues, rfl⟩ := hvalue
      rw [Expr.occurrencesOfElements, List.forall_mem_append, ← Expr.length_of_lowerEach hvalues]
      exact ⟨Expr.found_occurrencesEach elements hvalues front others, hes⟩
    | _ =>
      obtain ⟨first, more, hjoined, hwidth, hfirst⟩ := Expr.exists_joined hvalue he nofun
      rw [hjoined, List.length_cons, hwidth] at hes
      rw [hjoined, Expr.occurrencesOfElements_cons, List.forall_mem_append]
      · exact ⟨Occurrence.found_map_under hfirst (Json.step?_array front first (more ++ others)),
          hes⟩
      · nofun

theorem Expr.found_occurrencesOfFields : ∀ (fields before : List (String × Expr))
    {members : List (String × Json)}, LastWins (before ++ fields) members →
    ∀ o ∈ Expr.occurrencesOfFields fields, o.Found (.object members)
  | [], _, _, _ => nofun
  | (key, e) :: fields, before, members, h => by
    rw [Expr.occurrencesOfFields, List.forall_mem_append]
    constructor
    · split
      · exact Occurrence.found_map_dropped _ _
      · rename_i hlast
        obtain ⟨value, hvalue, hlookup⟩ := h.value key e (lookup_reverse_of_not_mem hlast)
        exact Occurrence.found_map_under (e.found_occurrences hvalue) hlookup
    · rw [List.append_cons] at h
      exact Expr.found_occurrencesOfFields fields (before ++ [(key, e)]) h

end

/-! ## Identifiers without a place -/

namespace Occurrence

/-- An occurrence has a place unless it is a word for an operation or one of the names that are
lost. -/
def Kept (lost : List String) (occurrence : Occurrence) : Prop :=
  occurrence.path = none →
    occurrence.name ∈ ["exists", Preference.callName] ∨ occurrence.name ∈ lost

variable {occurrences : List Occurrence} {lost lost' : List String}

theorem kept_map_under (h : ∀ o ∈ occurrences, o.Kept lost) (hlost : ∀ x ∈ lost, x ∈ lost')
    (step : Json.Step) : ∀ o ∈ occurrences.map (under step), o.Kept lost' := by
  intro o ho hpath
  obtain ⟨deeper, hdeeper, rfl⟩ := List.mem_map.1 ho
  exact (h deeper hdeeper (Option.map_eq_none_iff.1 hpath)).imp_right (hlost _)

theorem kept_map_dropped
    (h : ∀ x ∈ occurrences.map name, x ∈ ["exists", Preference.callName] ∨ x ∈ lost) :
    ∀ o ∈ occurrences.map dropped, o.Kept lost := by
  intro o ho _
  obtain ⟨deeper, hdeeper, rfl⟩ := List.mem_map.1 ho
  exact h deeper.name (List.mem_map_of_mem hdeeper)

theorem kept_mono (h : ∀ o ∈ occurrences, o.Kept lost) (hlost : ∀ x ∈ lost, x ∈ lost') :
    ∀ o ∈ occurrences, o.Kept lost' :=
  fun o ho hpath => (h o ho hpath).imp_right (hlost _)

end Occurrence

mutual

/-- An identifier of an expression without repeated keys has a place, unless it is a word for an
operation or a test overlooks it. -/
theorem Expr.kept_occurrences : ∀ (e : Expr) {j : Json}, DistinctKeys e.nodes → e.lower = .ok j →
    ∀ o ∈ e.occurrences, o.Kept e.overlooked
  | .binary op left right, j, hkeys, h => by
    simp only [Expr.lower, bind_eq_ok_iff, Except.ok.injEq] at h
    obtain ⟨l, hl, r, hr, rfl⟩ := h
    obtain ⟨hleft, hright⟩ := distinctKeys_append.1 hkeys.of_cons
    rw [Expr.occurrences, List.forall_mem_append, Expr.overlooked]
    exact ⟨Occurrence.kept_map_under (left.kept_occurrences hleft hl)
        (fun x => List.mem_append_left _) _,
      Occurrence.kept_map_under (right.kept_occurrences hright hr)
        (fun x => List.mem_append_right _) _⟩
  | .not operand, j, hkeys, h => by
    simp only [Expr.lower, bind_eq_ok_iff, Except.ok.injEq] at h
    obtain ⟨value, hvalue, rfl⟩ := h
    exact Occurrence.kept_map_under (operand.kept_occurrences hkeys.of_cons hvalue)
      (fun x => id) _
  | .call callee args, j, hkeys, h => by
    obtain ⟨hcallee, hargs⟩ := distinctKeys_append.1 hkeys.of_cons
    rw [Expr.lower] at h
    rw [Expr.occurrences, Expr.overlooked]
    split at h
    · rename_i hexists
      rw [if_pos hexists, if_pos hexists, List.forall_mem_append]
      refine ⟨Occurrence.kept_map_dropped ?_, Expr.kept_occurrencesOfTest args hargs h⟩
      rw [Expr.isName_eq_true_iff.1 hexists]
      simp [Expr.occurrences]
    rename_i hexists
    rw [if_neg hexists, if_neg hexists]
    split at h
    · rename_i hname
      simp only [bind_eq_ok_iff, Except.ok.injEq] at h
      obtain ⟨expansion, hexpand, rfl⟩ := h
      have hnone := ((Preference.exists_expand_iff args).1 ⟨expansion, hexpand⟩).identifiers_eq_nil
      rw [if_pos hname]
      apply Occurrence.kept_map_dropped
      rw [List.map_append, Expr.map_name_occurrencesEach, hnone.1,
        Expr.isName_eq_true_iff.1 hname]
      simp [Expr.occurrences]
    rename_i hname
    simp only [bind_eq_ok_iff, Except.ok.injEq] at h
    obtain ⟨head, hhead, values, hvalues, rfl⟩ := h
    rw [if_neg hname, List.forall_mem_append]
    exact ⟨Occurrence.kept_map_under (callee.kept_occurrences hcallee hhead)
        (fun x => List.mem_append_left _) _,
      Occurrence.kept_mono (Expr.kept_occurrencesEach args 1 hargs hvalues)
        (fun x => List.mem_append_right _)⟩
  | .member target property, j, hkeys, h => by
    simp only [Expr.lower, bind_eq_ok_iff, Except.ok.injEq] at h
    obtain ⟨key, hkey, root, hroot, rfl⟩ := h
    obtain ⟨htarget, hproperty⟩ := distinctKeys_append.1 hkeys.of_cons
    rw [Expr.occurrences, List.forall_mem_append, Expr.overlooked]
    exact ⟨Occurrence.kept_map_under (target.kept_occurrences htarget hroot)
        (fun x => List.mem_append_left _) _,
      Occurrence.kept_map_under (property.kept_occurrences hproperty hkey)
        (fun x => List.mem_append_right _) _⟩
  | .name x, _, _, _ => by
    rw [Expr.occurrences, List.forall_mem_singleton]
    nofun
  | .literal _, _, _, _ => nofun
  | .array elements, j, hkeys, h => by
    simp only [Expr.lower, bind_eq_ok_iff, Except.ok.injEq] at h
    obtain ⟨values, hvalues, rfl⟩ := h
    exact Expr.kept_occurrencesOfElements elements 1 hkeys.of_cons hvalues
  | .object fields, j, hkeys, h => by
    simp only [Expr.lower, bind_eq_ok_iff, Except.ok.injEq] at h
    obtain ⟨members, hmembers, rfl⟩ := h
    obtain ⟨hdistinct, hfields⟩ := hkeys.of_object
    exact Expr.kept_occurrencesOfFields fields hdistinct hfields hmembers
  | .spread elements, j, hkeys, h => by
    simp only [Expr.lower, bind_eq_ok_iff, Except.ok.injEq] at h
    obtain ⟨values, hvalues, rfl⟩ := h
    exact Expr.kept_occurrencesEach elements 0 hkeys.of_cons hvalues

theorem Expr.kept_occurrencesOfTest : ∀ (args : List Expr) {j : Json},
    DistinctKeys (Expr.nodesOfList args) → Expr.lowerExists args = .ok j →
    ∀ o ∈ Expr.occurrencesOfTest args, o.Kept (Expr.overlookedAfterFirst args)
  | [], _, _, h => by cases h
  | e :: es, j, hkeys, h => by
    simp only [Expr.lowerExists, bind_eq_ok_iff, Except.ok.injEq] at h
    obtain ⟨value, hvalue, rfl⟩ := h
    rw [Expr.occurrencesOfTest, List.forall_mem_append, Expr.overlookedAfterFirst]
    refine ⟨Occurrence.kept_map_under
        (e.kept_occurrences (distinctKeys_append.1 hkeys).1 hvalue)
        (fun x => List.mem_append_left _) _,
      Occurrence.kept_map_dropped fun x hx => Or.inr (List.mem_append_right _ ?_)⟩
    rwa [Expr.map_name_occurrencesEach] at hx

theorem Expr.kept_occurrencesEach : ∀ (es : List Expr) (index : Nat) {values : List Json},
    DistinctKeys (Expr.nodesOfList es) → Expr.lowerEach es = .ok values →
    ∀ o ∈ Expr.occurrencesEach index es, o.Kept (Expr.overlookedEach es)
  | [], _, _, _, _ => nofun
  | e :: es, index, values, hkeys, h => by
    simp only [Expr.lowerEach, bind_eq_ok_iff, Except.ok.injEq] at h
    obtain ⟨value, hvalue, others, hothers, rfl⟩ := h
    obtain ⟨he, hes⟩ := distinctKeys_append.1 hkeys
    rw [Expr.occurrencesEach, List.forall_mem_append, Expr.overlookedEach]
    exact ⟨Occurrence.kept_map_under (e.kept_occurrences he hvalue)
        (fun x => List.mem_append_left _) _,
      Occurrence.kept_mono (Expr.kept_occurrencesEach es (index + 1) hes hothers)
        (fun x => List.mem_append_right _)⟩

theorem Expr.kept_occurrencesOfElements : ∀ (es : List Expr) (index : Nat) {values : List Json},
    DistinctKeys (Expr.nodesOfList es) → Expr.lowerElements es = .ok values →
    ∀ o ∈ Expr.occurrencesOfElements index es, o.Kept (Expr.overlookedEach es)
  | [], _, _, _, _ => nofun
  | e :: es, index, values, hkeys, h => by
    simp only [Expr.lowerElements_cons, bind_eq_ok_iff, Except.ok.injEq] at h
    obtain ⟨value, hvalue, others, hothers, rfl⟩ := h
    obtain ⟨he, hes⟩ := distinctKeys_append.1 hkeys
    have hfirst := e.kept_occurrences he hvalue
    have hrest : ∀ index, ∀ o ∈ Expr.occurrencesOfElements index es,
        o.Kept (e.overlooked ++ Expr.overlookedEach es) := fun index =>
      Occurrence.kept_mono (Expr.kept_occurrencesOfElements es index hes hothers)
        fun x => List.mem_append_right _
    rw [Expr.overlookedEach]
    cases e with
    | spread elements =>
      simp only [Expr.lower, bind_eq_ok_iff, Except.ok.injEq] at hvalue
      obtain ⟨values, hvalues, rfl⟩ := hvalue
      rw [Expr.occurrencesOfElements, List.forall_mem_append]
      exact ⟨Occurrence.kept_mono (Expr.kept_occurrencesEach elements index he.of_cons hvalues)
        (fun x => List.mem_append_left _), hrest _⟩
    | _ =>
      rw [Expr.occurrencesOfElements_cons, List.forall_mem_append]
      · exact ⟨Occurrence.kept_map_under hfirst (fun x => List.mem_append_left _) _, hrest _⟩
      · nofun

theorem Expr.kept_occurrencesOfFields : ∀ (fields : List (String × Expr))
    {before members : List (String × Json)}, (fields.map Prod.fst).Nodup →
    DistinctKeys (Expr.nodesOfFields fields) → Expr.lowerFields before fields = .ok members →
    ∀ o ∈ Expr.occurrencesOfFields fields, o.Kept (Expr.overlookedOfFields fields)
  | [], _, _, _, _, _ => nofun
  | (key, e) :: fields, before, members, hdistinct, hkeys, h => by
    simp only [Expr.lowerFields, bind_eq_ok_iff] at h
    obtain ⟨value, hvalue, hothers⟩ := h
    obtain ⟨he, hfields⟩ := distinctKeys_append.1 hkeys
    rw [List.map_cons, List.nodup_cons] at hdistinct
    rw [Expr.occurrencesOfFields, List.forall_mem_append, Expr.overlookedOfFields,
      if_neg hdistinct.1]
    exact ⟨Occurrence.kept_map_under (e.kept_occurrences he hvalue)
        (fun x => List.mem_append_left _) _,
      Occurrence.kept_mono (Expr.kept_occurrencesOfFields fields hdistinct.2 hfields hothers)
        (fun x => List.mem_append_right _)⟩

end

end Dialogue
