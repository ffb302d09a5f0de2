import Dialogue.Proofs.Program.Emitted
import Dialogue.Proofs.Scope.Resolution

/-!
# Results in one expression

An expression can mention several results, each bound by another statement around it. The runtime
has one name for received input and one for returned values, so two results keep different names
exactly if one was received and the other one returned.

`Script.sites` has the expressions of a script, each with the results around it and with its place
in the program; some are not emitted as they are: the targets in a list, which are emitted in
backticks, and what stands in the fork of another program without a result, which is not emitted at
all. With the places of identifiers in expressions, this gives each identifier its place in the
program (`Site.place?`), and `Script.lower_apart_iff` reads there what two results in one expression
have become. `Script.lower_nestedInputs` shows two results that are taken for one.
-/

namespace Dialogue

/-! ## Bound results -/

/-- A result that is bound around a place, by the kind of statement that binds it. -/
inductive Binding where
  | input (result : String)
  | run (result : String)
  deriving DecidableEq

namespace Binding

/-- The name of the result. -/
def result : Binding → String
  | .input result => result
  | .run result => result

/-- Whether the result is received input. -/
def isInput : Binding → Bool
  | .input _ => true
  | .run _ => false

/-- The name under which the runtime gives the result. -/
def reserved : Binding → String
  | .input _ => Scope.inputName
  | .run _ => Scope.returnName

theorem reserved_ne_iff (first second : Binding) :
    first.reserved ≠ second.reserved ↔ first.isInput ≠ second.isInput := by
  cases first <;> cases second <;> simp [reserved, isInput, Scope.inputName, Scope.returnName]

theorem reserved_reserved (binding : Binding) : Scope.Reserved binding.reserved := by
  cases binding with
  | input result => exact Or.inl rfl
  | run result => exact Or.inr rfl

theorem reserved_not_mem_words (binding : Binding) :
    binding.reserved ∉ ["exists", Preference.callName] := by
  cases binding <;> simp [reserved, Scope.inputName, Scope.returnName, Preference.callName]

theorem lowerName_reserved (binding : Binding) :
    lowerName binding.reserved = .string binding.reserved := by
  cases binding with
  | input result => rfl
  | run result => rfl

end Binding

/-- The scope that some bindings make, the innermost first. -/
def Scope.ofBindings : List Binding → Scope
  | [] => id
  | binding :: bindings =>
    (ofBindings bindings).bind (ofBindings bindings binding.result) binding.reserved

/-- The results that are bound have names of their own, which are not reserved. -/
def Binding.Proper (bindings : List Binding) : Prop :=
  (bindings.map Binding.result).Nodup ∧ ∀ binding ∈ bindings, ¬ Scope.Reserved binding.result

namespace Scope

theorem resolving_ofBindings (bindings : List Binding) : (ofBindings bindings).Resolving := by
  induction bindings with
  | nil => exact resolving_id
  | cons binding bindings ih => exact ih.bind binding.reserved_reserved _

/-- A name that is neither bound nor reserved stays as it is. -/
theorem ofBindings_of_not_mem {bindings : List Binding} {x : String}
    (hx : x ∉ bindings.map Binding.result) (hunreserved : ¬ Reserved x) :
    ofBindings bindings x = x := by
  induction bindings with
  | nil => rfl
  | cons binding bindings ih =>
    rw [List.map_cons, List.mem_cons, not_or] at hx
    exact (resolving_ofBindings bindings).bind_eq_self hunreserved (Ne.symm hx.1) (ih hx.2)

/-- Each result becomes the name under which the runtime gives it. -/
theorem ofBindings_result {bindings : List Binding} (h : Binding.Proper bindings)
    {binding : Binding} (hmem : binding ∈ bindings) :
    ofBindings bindings binding.result = binding.reserved := by
  induction bindings with
  | nil => exact absurd hmem List.not_mem_nil
  | cons head tail ih =>
    obtain ⟨hnodup, hunreserved⟩ := h
    rw [List.map_cons, List.nodup_cons] at hnodup
    obtain ⟨hhead, htail⟩ := List.forall_mem_cons.1 hunreserved
    rw [ofBindings, Scope.bind]
    rcases List.mem_cons.1 hmem with rfl | hmem
    · exact if_pos rfl
    · have hne : binding.reserved ≠ head.result := fun heq =>
        hhead (heq ▸ binding.reserved_reserved)
      rw [ih ⟨hnodup.2, htail⟩ hmem, ofBindings_of_not_mem hnodup.1 hhead, renamed, if_neg hne]

end Scope

/-! ## Expressions in a script -/

/-- An expression of a script that is part of no other one, with the results that are bound around
it, the innermost first, and its place in the program if it has one. -/
structure Site where
  bindings : List Binding
  path : Option (List Json.Step)
  expression : Expr

namespace Site

/-- The site in a value that holds the JSON around it at the end of a path. -/
def under (front : List Json.Step) (site : Site) : Site :=
  { site with path := site.path.map (front ++ ·) }

/-- The site in what is not emitted. -/
def dropped (site : Site) : Site := { site with path := none }

/-- Expressions that are elements of an array, from an index on. -/
def each (bindings : List Binding) (index : Nat) : List Expr → List Site
  | [] => []
  | e :: es => ⟨bindings, some [.index index], e⟩ :: each bindings (index + 1) es

end Site

/-- The expressions of an assignment. Targets in a list are emitted in backticks, the root of an
edit is emitted a second time. -/
def Target.sites (bindings : List Binding) (value : Expr) : Target → List Site
  | .name _ => [⟨bindings, some [.member "val"], value⟩]
  | .list elements =>
    elements.map (Site.mk bindings none) ++ [⟨bindings, some [.member "val"], value⟩]
  | .edit root keys =>
    (Site.each bindings 1 (root :: value :: keys)).map (Site.under [.member "val"])

/-- The expressions in the start of another program; the arguments are taken as one list. -/
def Expr.callSites (bindings : List Binding) (name : Expr) (args : List Expr) : List Site :=
  [⟨bindings, some [.member "@run"], name⟩, ⟨bindings, some [.member "args"], .array args⟩]

mutual

/-- The expressions of a statement. -/
def Statement.sites (bindings : List Binding) : Statement → List Site
  | .fork choice => Fork.sites bindings choice
  | .input result choice => Fork.sites (.input result :: bindings) choice
  | .await condition body =>
    ⟨bindings, some [.member "await"], condition⟩ ::
      (Statement.sitesEach bindings 0 body).map (Site.under [.member "@do"])
  | .once body => (Statement.sitesEach bindings 0 body).map (Site.under [.member "@do"])
  | .perform verb value => [⟨bindings, some [.member verb.tag], value⟩]
  | .set target value => target.sites bindings value
  | .run name args _ none =>
    (name.callSites bindings args).map (Site.under [.member "@do", .index 0])
  | .run name args none (some choice) =>
    (name.callSites bindings args).map (Site.under [.member "@do", .index 0]) ++
      (Fork.sites bindings choice).map Site.dropped
  | .run name args (some result) (some choice) =>
    (name.callSites bindings args).map (Site.under [.member "@do", .index 0]) ++
      (Fork.sites (.run result :: bindings) choice).map (Site.under [.member "@do", .index 1])
  | .use name _ => [⟨bindings, some [.member "@use"], name⟩]
  | .define _ _ body =>
    (Statement.sitesEach bindings 0 body).map (Site.under [.member "val", .member "@do"])

/-- The expressions of a fork; its data is taken as one object. -/
def Fork.sites (bindings : List Binding) : Fork Statement → List Site
  | ⟨scheme, branches⟩ =>
    scheme.toList.map (fun fields => ⟨bindings, some [.member "scheme"], .object fields⟩) ++
      (Branch.sitesEach bindings 0 branches).map (Site.under [.member "@fork"])

/-- The expressions of branches, from an index on. -/
def Branch.sitesEach (bindings : List Binding) (index : Nat) :
    List (Branch Statement) → List Site
  | [] => []
  | ⟨condition, body⟩ :: branches =>
    condition.toList.map (Site.mk bindings (some [.index index, .member "if"])) ++
      (Statement.sitesEach bindings 0 body).map (Site.under [.index index, .member "@do"]) ++
      Branch.sitesEach bindings (index + 1) branches

/-- The expressions of statements, from an index on. -/
def Statement.sitesEach (bindings : List Binding) (index : Nat) : List Statement → List Site
  | [] => []
  | statement :: statements =>
    (statement.sites bindings).map (Site.under [.index index]) ++
      Statement.sitesEach bindings (index + 1) statements

end

/-- The expressions of a script. -/
def Script.sites (script : Script) : List Site :=
  (Statement.sitesEach [] 0 script).map (Site.under [.member "@do"])

namespace Site

/-- The expression in which every identifier is what its name is bound to. -/
def resolved (site : Site) : Expr := site.expression.mapNames (Scope.ofBindings site.bindings)

/-- An identifier of the expression, by its place among the identifiers, names a result that is
bound around it. -/
def Mentions (site : Site) (n : Nat) (binding : Binding) : Prop :=
  site.expression.identifiers[n]? = some binding.result ∧ binding ∈ site.bindings

/-- The place of an identifier of the expression in the program, if it has one. -/
def place? (site : Site) (n : Nat) : Option (List Json.Step) := do
  let front ← site.path
  let occurrence ← site.resolved.occurrences[n]?
  let path ← occurrence.path
  some (front ++ path)

/-- The expression is found in a program, if it has a place: what it is lowered to stands there. -/
def Found (program : Json) (site : Site) : Prop :=
  ∀ path, site.path = some path →
    ∃ value, program.at? path = some value ∧ site.resolved.lower = .ok value

variable {sites : List Site} {value inner : Json} {front : List Json.Step}

theorem found_map_under (h : ∀ site ∈ sites, site.Found inner)
    (hfront : value.at? front = some inner) :
    ∀ site ∈ sites.map (Site.under front), site.Found value := by
  intro site hsite path hpath
  obtain ⟨deeper, hdeeper, rfl⟩ := List.mem_map.1 hsite
  obtain ⟨back, hback, rfl⟩ := Option.map_eq_some_iff.1 hpath
  rw [Json.at?_append, hfront]
  exact h deeper hdeeper back hback

theorem found_map_dropped (sites : List Site) (value : Json) :
    ∀ site ∈ sites.map Site.dropped, site.Found value := by
  intro site hsite path hpath
  obtain ⟨deeper, -, rfl⟩ := List.mem_map.1 hsite
  cases hpath

/-- An expression that is lowered to the value at a place is found there. -/
theorem found_of_at? {bindings : List Binding} {e : Expr}
    (h : e.lowerIn (Scope.ofBindings bindings) = .ok inner)
    (hfront : value.at? front = some inner) :
    Found value ⟨bindings, some front, e⟩ := by
  intro path hpath
  cases hpath
  exact ⟨inner, hfront, h⟩

theorem found_each {bindings : List Binding} {es : List Expr} {values : List Json}
    (h : Expr.lowerEach (Expr.mapNamesOfList (Scope.ofBindings bindings) es) = .ok values)
    (front : List Json) :
    ∀ site ∈ each bindings front.length es, site.Found (.array (front ++ values)) := by
  induction es generalizing front values with
  | nil => nofun
  | cons e es ih =>
    simp only [Expr.mapNamesOfList, Expr.lowerEach, bind_eq_ok_iff, Except.ok.injEq] at h
    obtain ⟨value, hvalue, others, hothers, rfl⟩ := h
    have hes := ih hothers (front ++ [value])
    rw [List.length_append, List.append_assoc] at hes
    rw [each, List.forall_mem_cons]
    exact ⟨found_of_at? hvalue (Json.at?_array front value others []), hes⟩

end Site

/-! ## Each expression at its place -/

theorem Target.found_sites {bindings : List Binding} {target : Target} {value : Expr} {j : Json}
    (h : (target.mapNames (Scope.ofBindings bindings)).lowerAssignment
      (value.mapNames (Scope.ofBindings bindings)) = .ok j) :
    ∀ site ∈ target.sites bindings value, site.Found j := by
  simp only [Target.lowerAssignment, bind_eq_ok_iff, Except.ok.injEq] at h
  obtain ⟨⟨name, assigned⟩, hlower, rfl⟩ := h
  cases target with
  | name x =>
    simp only [Target.mapNames, Target.lower, bind_eq_ok_iff, Except.ok.injEq] at hlower
    obtain ⟨found, hfound, heq⟩ := hlower
    cases heq
    rw [Target.sites, List.forall_mem_singleton]
    exact Site.found_of_at? hfound rfl
  | list elements =>
    simp only [Target.mapNames, Target.lower, bind_eq_ok_iff, Except.ok.injEq] at hlower
    obtain ⟨targets, -, found, hfound, heq⟩ := hlower
    cases heq
    rw [Target.sites, List.forall_mem_append, List.forall_mem_singleton]
    refine ⟨?_, Site.found_of_at? hfound rfl⟩
    intro site hsite path hpath
    obtain ⟨e, -, rfl⟩ := List.mem_map.1 hsite
    cases hpath
  | edit root keys =>
    simp only [Target.mapNames, Target.lower, bind_eq_ok_iff] at hlower
    obtain ⟨found, hfound, hlower⟩ := hlower
    cases found with
    | string x =>
      simp only [bind_eq_ok_iff] at hlower
      obtain ⟨inner, hinner, others, hothers, heq⟩ := hlower
      cases heq
      have heach : Expr.lowerEach (Expr.mapNamesOfList (Scope.ofBindings bindings)
          (root :: value :: keys)) = .ok (.string x :: inner :: others) := by
        simp only [Expr.mapNamesOfList, Expr.lowerEach, hfound, hinner, hothers]
        rfl
      exact Site.found_map_under (Site.found_each heach [.string (quoted "edit")]) rfl
    | _ => cases hlower

theorem Expr.found_callSites {bindings : List Binding} {name : Expr} {args : List Expr} {j : Json}
    (h : name.lowerCallIn (Scope.ofBindings bindings) args = .ok j) :
    ∀ site ∈ name.callSites bindings args, site.Found j := by
  simp only [Expr.lowerCallIn, bind_eq_ok_iff, Except.ok.injEq] at h
  obtain ⟨program, hprogram, list, hlist, rfl⟩ := h
  rw [Expr.callSites, List.forall_mem_cons, List.forall_mem_singleton]
  refine ⟨Site.found_of_at? hprogram rfl, Site.found_of_at? ?_ rfl⟩
  rw [Expr.lowerIn, Expr.mapNames, Expr.lower]
  exact hlist

mutual

/-- Lowering a statement in the scope of some bindings puts each of its expressions at its place. -/
theorem Statement.found_sites : ∀ (s : Statement) {bindings : List Binding} {j : Json},
    s.lower (Scope.ofBindings bindings) = .ok j → ∀ site ∈ s.sites bindings, site.Found j
  | .fork choice, _, _, h => Fork.found_sites choice h
  | .input result choice, bindings, _, h =>
    @Fork.found_sites choice (.input result :: bindings) _ _ h
  | .await condition body, bindings, j, h => by
    simp only [Statement.lower, bind_eq_ok_iff, Except.ok.injEq] at h
    obtain ⟨statements, hstatements, value, hvalue, rfl⟩ := h
    rw [Statement.sites, List.forall_mem_cons]
    exact ⟨Site.found_of_at? hvalue rfl,
      Site.found_map_under (Statement.found_sitesEach body hstatements []) rfl⟩
  | .once body, bindings, j, h => by
    simp only [Statement.lower, bind_eq_ok_iff, Except.ok.injEq] at h
    obtain ⟨statements, hstatements, rfl⟩ := h
    exact Site.found_map_under (Statement.found_sitesEach body hstatements []) rfl
  | .perform verb value, bindings, j, h => by
    simp only [Statement.lower, bind_eq_ok_iff, Except.ok.injEq] at h
    obtain ⟨found, hfound, rfl⟩ := h
    rw [Statement.sites, List.forall_mem_singleton]
    refine Site.found_of_at? hfound ?_
    rw [Json.at?, Json.step?, Json.member?, List.lookup_cons_self]
    rfl
  | .set target value, _, _, h => Target.found_sites h
  | .run name args none none, bindings, j, h => by
    simp only [Statement.lower, bind_eq_ok_iff, Except.ok.injEq] at h
    obtain ⟨call, hcall, rfl⟩ := h
    exact Site.found_map_under (Expr.found_callSites hcall) rfl
  | .run name args (some result) none, bindings, j, h => by
    simp only [Statement.lower, bind_eq_ok_iff, Except.ok.injEq] at h
    obtain ⟨call, hcall, rfl⟩ := h
    exact Site.found_map_under (Expr.found_callSites hcall) rfl
  | .run name args none (some choice), bindings, j, h => by
    simp only [Statement.lower, bind_eq_ok_iff, Except.ok.injEq] at h
    obtain ⟨call, hcall, rfl⟩ := h
    rw [Statement.sites, List.forall_mem_append]
    exact ⟨Site.found_map_under (Expr.found_callSites hcall) rfl, Site.found_map_dropped _ _⟩
  | .run name args (some result) (some choice), bindings, j, h => by
    simp only [Statement.lower, bind_eq_ok_iff, Except.ok.injEq] at h
    obtain ⟨call, hcall, handler, hhandler, rfl⟩ := h
    have hchoice := @Fork.found_sites choice (.run result :: bindings) _ _ hhandler
    rw [Statement.sites, List.forall_mem_append]
    exact ⟨Site.found_map_under (Expr.found_callSites hcall) rfl,
      Site.found_map_under hchoice rfl⟩
  | .use name imports, bindings, j, h => by
    simp only [Statement.lower, bind_eq_ok_iff, Except.ok.injEq] at h
    obtain ⟨found, hfound, rfl⟩ := h
    rw [Statement.sites, List.forall_mem_singleton]
    exact Site.found_of_at? hfound rfl
  | .define name params body, bindings, j, h => by
    simp only [Statement.lower, bind_eq_ok_iff, Except.ok.injEq] at h
    obtain ⟨statements, hstatements, rfl⟩ := h
    exact Site.found_map_under (Statement.found_sitesEach body hstatements []) rfl

theorem Fork.found_sites : ∀ (choice : Fork Statement) {bindings : List Binding}
    {members : List (String × Json)} {j : Json},
    Fork.lower (Scope.ofBindings bindings) members choice = .ok j →
    ∀ site ∈ Fork.sites bindings choice, site.Found j
  | ⟨scheme, branches⟩, bindings, members, j, h => by
    simp only [Fork.lower, bind_eq_ok_iff, Except.ok.injEq] at h
    obtain ⟨values, hvalues, data, hdata, rfl⟩ := h
    rw [Fork.sites, List.forall_mem_append]
    refine ⟨?_, Site.found_map_under (Branch.found_sitesEach branches hvalues []) rfl⟩
    cases scheme with
    | none => nofun
    | some fields =>
      simp only [Expr.lowerSchemeIn, bind_eq_ok_iff, Except.ok.injEq] at hdata
      obtain ⟨value, hvalue, rfl⟩ := hdata
      rw [Option.toList_some, List.map_singleton, List.forall_mem_singleton]
      exact Site.found_of_at? hvalue rfl

theorem Branch.found_sitesEach : ∀ (branches : List (Branch Statement)) {bindings : List Binding}
    {values : List Json}, Branch.lowerEach (Scope.ofBindings bindings) branches = .ok values →
    ∀ front : List Json, ∀ site ∈ Branch.sitesEach bindings front.length branches,
      site.Found (.array (front ++ values))
  | [], _, _, _, _ => nofun
  | ⟨condition, body⟩ :: branches, bindings, values, h, front => by
    simp only [Branch.lowerEach, bind_eq_ok_iff, Except.ok.injEq] at h
    obtain ⟨statements, hstatements, test, htest, others, hothers, rfl⟩ := h
    have hbranches := Branch.found_sitesEach branches hothers
      (front ++ [.block statements (optionalMember "if" test)])
    rw [List.length_append, List.append_assoc] at hbranches
    rw [Branch.sitesEach, List.forall_mem_append]
    rw [List.forall_mem_append]
    refine ⟨⟨?_, Site.found_map_under (Statement.found_sitesEach body hstatements [])
      (Json.at?_array front _ others [.member "@do"])⟩, hbranches⟩
    cases condition with
    | none => nofun
    | some e =>
      simp only [Expr.lowerOptionIn, bind_eq_ok_iff, Except.ok.injEq] at htest
      obtain ⟨value, hvalue, rfl⟩ := htest
      rw [Option.toList_some, List.map_singleton, List.forall_mem_singleton]
      exact Site.found_of_at? hvalue (Json.at?_array front _ others [.member "if"])

theorem Statement.found_sitesEach : ∀ (statements : List Statement) {bindings : List Binding}
    {values : List Json}, Statement.lowerEach (Scope.ofBindings bindings) statements = .ok values →
    ∀ front : List Json, ∀ site ∈ Statement.sitesEach bindings front.length statements,
      site.Found (.array (front ++ values))
  | [], _, _, _, _ => nofun
  | s :: statements, bindings, values, h, front => by
    simp only [Statement.lowerEach, bind_eq_ok_iff, Except.ok.injEq] at h
    obtain ⟨value, hvalue, others, hothers, rfl⟩ := h
    have hstatements := Statement.found_sitesEach statements hothers (front ++ [value])
    rw [List.length_append, List.append_assoc] at hstatements
    rw [Statement.sitesEach, List.forall_mem_append]
    exact ⟨Site.found_map_under (s.found_sites hvalue) (Json.at?_array front value others []),
      hstatements⟩

end

theorem Script.found_sites {P : Script} {program : Json} (h : P.lower = .ok program) :
    ∀ site ∈ P.sites, site.Found program := by
  simp only [Script.lower, bind_eq_ok_iff, Except.ok.injEq] at h
  obtain ⟨statements, hstatements, rfl⟩ := h
  have hscope : Scope.ofBindings [] = id := rfl
  rw [← hscope] at hstatements
  exact Site.found_map_under (Statement.found_sitesEach P hstatements []) rfl

/-! ## Different results -/

/-- The results around an expression have names of their own, which are not reserved. -/
def Site.Proper (site : Site) : Prop := Binding.Proper site.bindings

theorem Binding.Proper.cons {bindings : List Binding} (h : Binding.Proper bindings)
    {binding : Binding} (hnew : binding.result ∉ bindings.map Binding.result)
    (hresult : (Node.identifier binding.result).Unreserved) :
    Binding.Proper (binding :: bindings) :=
  ⟨List.nodup_cons.2 ⟨hnew, h.1⟩, List.forall_mem_cons.2 ⟨hresult _ rfl, h.2⟩⟩

namespace Site

variable {bindings : List Binding} {sites : List Site}

theorem proper_under (front : List Json.Step) (h : ∀ site ∈ sites, site.Proper) :
    ∀ site ∈ sites.map (Site.under front), site.Proper := by
  intro site hsite
  obtain ⟨deeper, hdeeper, rfl⟩ := List.mem_map.1 hsite
  exact h deeper hdeeper

theorem proper_dropped (h : ∀ site ∈ sites, site.Proper) :
    ∀ site ∈ sites.map Site.dropped, site.Proper := by
  intro site hsite
  obtain ⟨deeper, hdeeper, rfl⟩ := List.mem_map.1 hsite
  exact h deeper hdeeper

theorem proper_map {α : Type} (h : Binding.Proper bindings) (path : Option (List Json.Step))
    (f : α → Expr) (values : List α) :
    ∀ site ∈ values.map fun value => Site.mk bindings path (f value), site.Proper := by
  intro site hsite
  obtain ⟨e, -, rfl⟩ := List.mem_map.1 hsite
  exact h

theorem proper_each (h : Binding.Proper bindings) (index : Nat) (es : List Expr) :
    ∀ site ∈ each bindings index es, site.Proper := by
  induction es generalizing index with
  | nil => nofun
  | cons e es ih => exact List.forall_mem_cons.2 ⟨h, ih (index + 1)⟩

end Site

theorem Target.proper_sites {bindings : List Binding} (h : Binding.Proper bindings) (value : Expr)
    (target : Target) : ∀ site ∈ target.sites bindings value, site.Proper := by
  cases target with
  | name x => exact List.forall_mem_singleton.2 h
  | list elements =>
    rw [Target.sites, List.forall_mem_append, List.forall_mem_singleton]
    exact ⟨Site.proper_map h none id elements, h⟩
  | edit root keys => exact Site.proper_under _ (Site.proper_each h 1 _)

theorem Expr.proper_callSites {bindings : List Binding} (h : Binding.Proper bindings) (name : Expr)
    (args : List Expr) : ∀ site ∈ name.callSites bindings args, site.Proper :=
  List.forall_mem_cons.2 ⟨h, List.forall_mem_singleton.2 h⟩

mutual

theorem Statement.proper_sites : ∀ (s : Statement) {bindings : List Binding},
    Binding.Proper bindings → s.Unshadowed (bindings.map Binding.result) →
    (∀ node ∈ s.nodes, node.Unreserved) → ∀ site ∈ s.sites bindings, site.Proper
  | .fork choice, bindings, h, hs, hnodes => by
    rw [Statement.nodes, List.forall_mem_cons] at hnodes
    exact Fork.proper_sites choice h hs hnodes.2
  | .input result choice, bindings, h, hs, hnodes => by
    simp only [Statement.nodes, List.forall_mem_cons] at hnodes
    obtain ⟨-, hresult, hnodes⟩ := hnodes
    exact @Fork.proper_sites choice (.input result :: bindings) (h.cons hs.1 hresult) hs.2 hnodes
  | .await condition body, bindings, h, hs, hnodes => by
    simp only [Statement.nodes, List.forall_mem_cons, List.forall_mem_append] at hnodes
    rw [Statement.sites, List.forall_mem_cons]
    exact ⟨h, Site.proper_under _ (Statement.proper_sitesEach body h hs hnodes.2.2.2)⟩
  | .once body, bindings, h, hs, hnodes => by
    simp only [Statement.nodes, List.forall_mem_cons] at hnodes
    exact Site.proper_under _ (Statement.proper_sitesEach body h hs hnodes.2.2)
  | .perform _ _, _, h, _, _ => List.forall_mem_singleton.2 h
  | .set target value, _, h, _, _ => target.proper_sites h value
  | .run name args none none, _, h, _, _ => Site.proper_under _ (name.proper_callSites h args)
  | .run name args (some _) none, _, h, _, _ => Site.proper_under _ (name.proper_callSites h args)
  | .run name args none (some choice), bindings, h, hs, hnodes => by
    simp only [Statement.nodes, List.forall_mem_cons, List.forall_mem_append] at hnodes
    rw [Statement.sites, List.forall_mem_append]
    exact ⟨Site.proper_under _ (name.proper_callSites h args),
      Site.proper_dropped (Fork.proper_sites choice h hs hnodes.2.2)⟩
  | .run name args (some result) (some choice), bindings, h, hs, hnodes => by
    simp only [Statement.nodes, List.forall_mem_cons, List.forall_mem_append, Option.toList_some,
      List.map_cons] at hnodes
    obtain ⟨-, ⟨-, hresult, -⟩, hnodes⟩ := hnodes
    rw [Statement.sites, List.forall_mem_append]
    exact ⟨Site.proper_under _ (name.proper_callSites h args), Site.proper_under _
      (@Fork.proper_sites choice (.run result :: bindings) (h.cons hs.1 hresult) hs.2 hnodes)⟩
  | .use _ _, _, h, _, _ => List.forall_mem_singleton.2 h
  | .define _ _ body, bindings, h, hs, hnodes => by
    simp only [Statement.nodes, List.forall_mem_cons, List.forall_mem_append] at hnodes
    exact Site.proper_under _ (Statement.proper_sitesEach body h hs hnodes.2.2.2.2)

theorem Fork.proper_sites : ∀ (choice : Fork Statement) {bindings : List Binding},
    Binding.Proper bindings → Fork.Unshadowed (bindings.map Binding.result) choice →
    (∀ node ∈ Fork.nodes choice, node.Unreserved) →
    ∀ site ∈ Fork.sites bindings choice, site.Proper
  | ⟨scheme, branches⟩, bindings, h, hs, hnodes => by
    simp only [Fork.nodes, List.forall_mem_cons, List.forall_mem_append] at hnodes
    rw [Fork.sites, List.forall_mem_append]
    exact ⟨Site.proper_map h _ Expr.object scheme.toList,
      Site.proper_under _ (Branch.proper_sitesEach branches h hs hnodes.2.2)⟩

theorem Branch.proper_sitesEach : ∀ (branches : List (Branch Statement))
    {bindings : List Binding} {index : Nat}, Binding.Proper bindings →
    Branch.UnshadowedEach (bindings.map Binding.result) branches →
    (∀ node ∈ Branch.nodesOfList branches, node.Unreserved) →
    ∀ site ∈ Branch.sitesEach bindings index branches, site.Proper
  | [], _, _, _, _, _ => nofun
  | ⟨condition, body⟩ :: branches, bindings, index, h, hs, hnodes => by
    simp only [Branch.nodesOfList, List.forall_mem_cons, List.forall_mem_append,
      List.cons_append] at hnodes
    obtain ⟨-, ⟨-, -, hbody⟩, hothers⟩ := hnodes
    rw [Branch.sitesEach, List.forall_mem_append, List.forall_mem_append]
    exact ⟨⟨Site.proper_map h _ id condition.toList,
      Site.proper_under _ (Statement.proper_sitesEach body h hs.1 hbody)⟩,
      Branch.proper_sitesEach branches h hs.2 hothers⟩

theorem Statement.proper_sitesEach : ∀ (statements : List Statement) {bindings : List Binding}
    {index : Nat}, Binding.Proper bindings →
    Statement.UnshadowedEach (bindings.map Binding.result) statements →
    (∀ node ∈ Statement.nodesOfList statements, node.Unreserved) →
    ∀ site ∈ Statement.sitesEach bindings index statements, site.Proper
  | [], _, _, _, _, _ => nofun
  | s :: statements, bindings, index, h, hs, hnodes => by
    simp only [Statement.nodesOfList, List.forall_mem_append] at hnodes
    rw [Statement.sitesEach, List.forall_mem_append]
    exact ⟨Site.proper_under _ (s.proper_sites h hs.1 hnodes.1),
      Statement.proper_sitesEach statements h hs.2 hnodes.2⟩

end

namespace Site.Mentions

variable {site : Site} {n : Nat} {binding : Binding}

/-- An identifier that names a result has become the name under which the runtime gives it. -/
theorem getElem?_occurrences (h : site.Mentions n binding) (hproper : site.Proper) :
    ∃ occurrence, site.resolved.occurrences[n]? = some occurrence ∧
      occurrence.name = binding.reserved := by
  have hnames : (site.resolved.occurrences.map Occurrence.name)[n]? = some binding.reserved := by
    have hidentifiers : site.resolved.identifiers =
        site.expression.identifiers.map (Scope.ofBindings site.bindings) :=
      Expr.identifiers_mapNames site.expression
    rw [Expr.map_name_occurrences, hidentifiers, List.getElem?_map, h.1, Option.map_some,
      Scope.ofBindings_result hproper h.2]
  rw [List.getElem?_map] at hnames
  exact Option.map_eq_some_iff.1 hnames

/-- It is found under that name at its place in a program, if it has one. -/
theorem at?_eq (h : site.Mentions n binding) (hproper : site.Proper) {program : Json}
    (hfound : site.Found program) {path : List Json.Step} (hplace : site.place? n = some path) :
    program.at? path = some (.string binding.reserved) := by
  obtain ⟨occurrence, hoccurrence, hname⟩ := h.getElem?_occurrences hproper
  simp only [Site.place?, hoccurrence, Option.bind_eq_bind, Option.bind_eq_some_iff,
    Option.some.injEq] at hplace
  obtain ⟨front, hfront, _, rfl, back, hback, rfl⟩ := hplace
  obtain ⟨value, hvalue, hlower⟩ := hfound front hfront
  rw [Json.at?_append, hvalue, Option.bind_some, ← binding.lowerName_reserved, ← hname]
  exact Expr.found_occurrences _ hlower occurrence (List.mem_of_getElem? hoccurrence) back hback

/-- It has a place if its expression has one, repeats no key, and does not overlook the name. -/
theorem isSome_place? (h : site.Mentions n binding) (hproper : site.Proper) {program : Json}
    (hfound : site.Found program) (hpath : site.path.isSome = true)
    (hkeys : DistinctKeys site.resolved.nodes)
    (hseen : binding.reserved ∉ site.resolved.overlooked) : (site.place? n).isSome = true := by
  obtain ⟨occurrence, hoccurrence, hname⟩ := h.getElem?_occurrences hproper
  obtain ⟨front, hfront⟩ := Option.isSome_iff_exists.1 hpath
  obtain ⟨value, -, hlower⟩ := hfound front hfront
  have hkept := Expr.kept_occurrences _ hkeys hlower occurrence (List.mem_of_getElem? hoccurrence)
  cases hback : occurrence.path with
  | some back =>
    simp only [Site.place?, hfront, hoccurrence, hback, Option.bind_eq_bind, Option.bind_some]
    rfl
  | none =>
    rcases hkept hback with hword | hlost
    · rw [hname] at hword
      exact absurd hword binding.reserved_not_mem_words
    · rw [hname] at hlost
      exact absurd hlost hseen

end Site.Mentions

/-- Two results in one expression are kept apart exactly if one is received and the other one is
returned. In the program of a script with identifiers that have no reserved name, and results that
are not bound again under their own names, two identifiers of one expression that name results and
have places in the program are found there as names of the runtime, and these names are different
exactly if the results are of different kinds. An identifier has a place if its expression does,
unless a key is repeated in the expression or a test overlooks the identifier. -/
theorem Script.lower_apart_iff (P : Script) (program : Json) (hlower : P.lower = .ok program)
    (hreserved : ∀ node ∈ P.nodes, node.Unreserved) (hbound : P.Unshadowed) :
    ∀ site ∈ P.sites,
      (∀ (n n' : Nat) (first second : Binding) (path path' : List Json.Step),
        site.Mentions n first → site.place? n = some path →
        site.Mentions n' second → site.place? n' = some path' →
        ∃ x y, program.at? path = some (.string x) ∧ program.at? path' = some (.string y) ∧
          x = first.reserved ∧ y = second.reserved ∧
          (x ≠ y ↔ first.isInput ≠ second.isInput)) ∧
      ∀ (n : Nat) (binding : Binding), site.Mentions n binding → site.path.isSome = true →
        DistinctKeys site.resolved.nodes → binding.reserved ∉ site.resolved.overlooked →
        (site.place? n).isSome = true := by
  intro site hsite
  rw [Script.nodes, List.forall_mem_cons] at hreserved
  have hproper : site.Proper := Site.proper_under [.member "@do"]
    (@Statement.proper_sitesEach P [] 0 ⟨List.nodup_nil, List.forall_mem_nil _⟩ hbound hreserved.2)
    site hsite
  have hfound := Script.found_sites hlower site hsite
  constructor
  · intro n n' first second path path' hfirst hpath hsecond hpath'
    exact ⟨first.reserved, second.reserved, hfirst.at?_eq hproper hfound hpath,
      hsecond.at?_eq hproper hfound hpath', rfl, rfl, first.reserved_ne_iff second⟩
  · intro n binding hmentions hpath hkeys hseen
    exact hmentions.isSome_place? hproper hfound hpath hkeys hseen

/-- Received input inside the branches for a returned value. -/
def inputInRun : Script :=
  [.run (.name "f") [] (some "a") (some (.plain [⟨none,
    [.input "b" (.plain [⟨none,
      [.perform .act (.binary .add (.name "a") (.name "b"))]⟩])]⟩]))]

/-- The sum of a returned value and received input. -/
def sumInRun : Site where
  bindings := [.input "b", .run "a"]
  path := some [.member "@do", .index 0, .member "@do", .index 1, .member "@fork", .index 0,
    .member "@do", .index 0, .member "@fork", .index 0, .member "@do", .index 0, .member "@act"]
  expression := .binary .add (.name "a") (.name "b")

theorem Script.lower_apart_iff_inputInRun :
    ∃ program, inputInRun.lower = .ok program ∧
      ∃ path path', sumInRun.place? 0 = some path ∧ sumInRun.place? 1 = some path' ∧
        program.at? path = some (.string "_return") ∧
        program.at? path' = some (.string "_nlu") := by
  have hbound : inputInRun.Unshadowed := by
    simp [inputInRun, Script.Unshadowed, Statement.UnshadowedEach, Statement.Unshadowed, Fork.plain,
      Fork.Unshadowed, Branch.UnshadowedEach]
  have hsite : sumInRun ∈ inputInRun.sites := by
    simp [inputInRun, sumInRun, Script.sites, Statement.sitesEach, Statement.sites, Expr.callSites,
      Fork.plain, Fork.sites, Branch.sitesEach, Site.under, Verb.tag, Verb.text]
  have hnames := (Script.lower_apart_iff inputInRun _ rfl (by decide) hbound sumInRun hsite).1
  obtain ⟨x, y, hx, hy, rfl, rfl, -⟩ := hnames 0 1 (.run "a") (.input "b") _ _
    ⟨rfl, by simp [sumInRun]⟩ rfl ⟨rfl, by simp [sumInRun]⟩ rfl
  exact ⟨_, rfl, _, _, rfl, rfl, hx, hy⟩

/-- Received input inside the branches for other received input. -/
def nestedInputs : Script :=
  [.input "a" (.plain [⟨none,
    [.input "b" (.plain [⟨none,
      [.perform .act (.binary .add (.name "a") (.name "b"))]⟩])]⟩])]

/-- The sum of the two inputs. -/
def sumOfInputs : Site where
  bindings := [.input "b", .input "a"]
  path := some [.member "@do", .index 0, .member "@fork", .index 0, .member "@do", .index 0,
    .member "@fork", .index 0, .member "@do", .index 0, .member "@act"]
  expression := .binary .add (.name "a") (.name "b")

/-- Two results that were received one after the other become one name, in one expression. -/
theorem Script.lower_nestedInputs :
    (∀ node ∈ nestedInputs.nodes, node.Unreserved) ∧ nestedInputs.Unshadowed ∧
    sumOfInputs ∈ nestedInputs.sites ∧
    sumOfInputs.Mentions 0 (.input "a") ∧ sumOfInputs.Mentions 1 (.input "b") ∧
    ∃ program path path', nestedInputs.lower = .ok program ∧
      sumOfInputs.place? 0 = some path ∧ sumOfInputs.place? 1 = some path' ∧ path ≠ path' ∧
      program.at? path = some (.string "_nlu") ∧ program.at? path' = some (.string "_nlu") := by
  refine ⟨by decide, ?bound, ?site, ⟨rfl, by simp [sumOfInputs]⟩, ⟨rfl, by simp [sumOfInputs]⟩,
    _, _, _, rfl, rfl, rfl, by decide, rfl, rfl⟩
  case bound =>
    simp [nestedInputs, Script.Unshadowed, Statement.UnshadowedEach, Statement.Unshadowed,
      Fork.plain, Fork.Unshadowed, Branch.UnshadowedEach]
  case site =>
    simp [nestedInputs, sumOfInputs, Script.sites, Statement.sitesEach, Statement.sites, Fork.plain,
      Fork.sites, Branch.sitesEach, Site.under, Verb.tag, Verb.text]

end Dialogue
