import Dialogue.Proofs.Program.Supported
import Dialogue.Proofs.RoundTrip.Statement
import Mathlib.Data.List.Forall2

/-!
# Places in a value, written and read

A chain of indexings names a place in a value. Before the sign of an assignment it is taken apart
into a root and the list of its keys, from which it can be built again (`Expr.indexed_unindex`). The
assignment hands the keys to the runtime as a flat list, in the order in which they are written.
When the same chain is read, each key is the operand of an operation of its own, and the operation
for the last key stands outermost (`Expr.lowerIn_indexed`). So both hold the same keys, and from the
outside inwards a read has them in the opposite order (`Json.readKeys_reads`). The main result is
`Target.edit_lossless`.
-/

namespace Dialogue

/-! ## Taking a chain apart -/

/-- The parts of a chain make the chain, with the given keys after it. -/
theorem Expr.indexed_unindexBefore (e : Expr) (keys : List Expr) :
    (e.unindexBefore keys).1.indexed (e.unindexBefore keys).2 = e.indexed keys := by
  fun_induction Expr.unindexBefore keys e with
  | case1 keys target property ih => exact ih
  | case2 keys e hmember => rfl

theorem Expr.indexed_unindex (e : Expr) : e.unindex.1.indexed e.unindex.2 = e :=
  e.indexed_unindexBefore []

/-! ## Reads -/

namespace Json

/-- The read of one place in a value that is found already. -/
def get (found key : Json) : Json := .array [.string "get", key, found]

/-- The read of a place that keys lead to, one after the other. -/
def reads (root : Json) (keys : List Json) : Json := keys.foldl get root

/-- The keys of a read, from the outside inwards. -/
def readKeys : Json → List Json
  | .array [.string "get", key, found] => key :: readKeys found
  | _ => []

/-- A read has its keys in the opposite order. -/
theorem readKeys_reads (root : Json) (keys : List Json) :
    (root.reads keys).readKeys = keys.reverse ++ root.readKeys := by
  induction keys generalizing root with
  | nil => rfl
  | cons key keys ih =>
    have hget : (root.get key).readKeys = key :: root.readKeys := by rw [get, readKeys]
    rw [show root.reads (key :: keys) = (root.get key).reads keys from rfl, ih, hget,
      List.reverse_cons, List.append_assoc, List.singleton_append]

end Json

/-! ## Lowering -/

section

variable {scope : Scope}

/-- The values that expressions have in a scope. -/
def Expr.LowerTo (scope : Scope) (es : List Expr) (values : List Json) : Prop :=
  List.Forall₂ (fun e value => e.lowerIn scope = .ok value) es values

theorem Expr.exists_lowerTo {es : List Expr} (h : ∀ e ∈ es, ∃ value, e.lowerIn scope = .ok value) :
    ∃ values, Expr.LowerTo scope es values := by
  induction es with
  | nil => exact ⟨[], .nil⟩
  | cons e es ih =>
    rw [List.forall_mem_cons] at h
    obtain ⟨⟨value, hvalue⟩, hes⟩ := h
    obtain ⟨values, hvalues⟩ := ih hes
    exact ⟨value :: values, .cons hvalue hvalues⟩

theorem Expr.LowerTo.lowerEach {es : List Expr} {values : List Json}
    (h : Expr.LowerTo scope es values) :
    Expr.lowerEach (Expr.mapNamesOfList scope es) = .ok values := by
  induction h with
  | nil => rfl
  | cons hvalue _ ih =>
    rw [Expr.mapNamesOfList, Expr.lowerEach]
    exact bind_eq_ok_iff.2 ⟨_, hvalue, bind_eq_ok_iff.2 ⟨_, ih, rfl⟩⟩

theorem Expr.lowerIn_member {target property : Expr} {found key : Json}
    (htarget : target.lowerIn scope = .ok found) (hproperty : property.lowerIn scope = .ok key) :
    (Expr.member target property).lowerIn scope = .ok (found.get key) := by
  rw [Expr.lowerIn, Expr.mapNames, Expr.lower]
  exact bind_eq_ok_iff.2 ⟨_, hproperty, bind_eq_ok_iff.2 ⟨_, htarget, rfl⟩⟩

/-- A chain is lowered to the reads of its keys, the first one innermost. -/
theorem Expr.lowerIn_indexed {root : Expr} {found : Json} {keys : List Expr} {ks : List Json}
    (hroot : root.lowerIn scope = .ok found) (hkeys : Expr.LowerTo scope keys ks) :
    (root.indexed keys).lowerIn scope = .ok (found.reads ks) := by
  unfold Expr.LowerTo at hkeys
  induction hkeys generalizing root found with
  | nil => exact hroot
  | cons hkey _ ih => exact ih (Expr.lowerIn_member hroot hkey)

theorem Expr.lowerIn_name {a : String} (ha : scope a ≠ "null") :
    (Expr.name a).lowerIn scope = .ok (.string (scope a)) := by
  rw [Expr.lowerIn, Expr.mapNames, Expr.lower, lowerName, if_neg ha]

/-- An edit of a name is lowered to an assignment of the edited value to that name. -/
theorem Statement.lower_edit {a : String} {keys : List Expr} {value : Expr} {ks : List Json}
    {v : Json} (ha : scope a ≠ "null") (hkeys : Expr.LowerTo scope keys ks)
    (hvalue : value.lowerIn scope = .ok v) :
    (Statement.set (.edit (.name a) keys) value).lower scope =
      .ok (.object [("@set", .string (quoted (scope a))),
        ("val", .array (.string (quoted "edit") :: .string (scope a) :: v :: ks))]) := by
  have hedit : (Target.edit ((Expr.name a).mapNames scope) (Expr.mapNamesOfList scope keys)).lower
      (value.mapNames scope) = .ok (.string (quoted (scope a)),
        .array (.string (quoted "edit") :: .string (scope a) :: v :: ks)) :=
    Target.lower_edit_eq_ok_iff.2
      ⟨scope a, v, ks, Expr.lowerIn_name ha, hvalue, hkeys.lowerEach, rfl⟩
  rw [Statement.lower, Target.lowerAssignment, Target.mapNames]
  exact bind_eq_ok_iff.2 ⟨_, hedit, rfl⟩

end

/-- Indexed targets are taken apart without loss. A single chain before the sign of an assignment
makes an edit, whose root and keys make the chain again. Where the root is a name other than `null`
and the keys and the value can be lowered, in any scope, the edit lists the root, the value and the
keys in the order in which they are written; and the chain is read by as many operations as there
are keys, with the same keys in the opposite order from the outside inwards. -/
theorem Target.edit_lossless :
    (∀ target property : Expr, ∃ root keys,
      Target.ofElements [.member target property] = .edit root keys ∧ keys ≠ [] ∧
        root.isMember = false ∧ root.indexed keys = .member target property) ∧
    ∀ (scope : Scope) (a : String) (keys : List Expr) (value : Expr), scope a ≠ "null" →
      (∀ key ∈ keys, ∃ k, key.lowerIn scope = .ok k) → (∃ v, value.lowerIn scope = .ok v) →
      (keys ≠ [] → Target.ofElements [(Expr.name a).indexed keys] = .edit (.name a) keys) ∧
      ∃ ks v, Expr.LowerTo scope keys ks ∧ value.lowerIn scope = .ok v ∧
        (Statement.set (.edit (.name a) keys) value).lower scope =
          .ok (.object [("@set", .string (quoted (scope a))),
            ("val", .array (.string (quoted "edit") :: .string (scope a) :: v :: ks))]) ∧
        ((Expr.name a).indexed keys).lowerIn scope = .ok (Json.reads (.string (scope a)) ks) ∧
        (Json.reads (.string (scope a)) ks).readKeys = ks.reverse := by
  refine ⟨?parts, ?places⟩
  case parts =>
    intro target property
    obtain ⟨hroot, hkeys⟩ := Expr.unindex_member target property
    exact ⟨_, _, Target.ofElements_member rfl, hkeys, hroot, Expr.indexed_unindex _⟩
  case places =>
    rintro scope a keys value ha hkeys ⟨v, hv⟩
    obtain ⟨ks, hks⟩ := Expr.exists_lowerTo hkeys
    refine ⟨Target.ofElements_indexed rfl, ks, v, hks, hv, Statement.lower_edit ha hks hv,
      Expr.lowerIn_indexed (Expr.lowerIn_name ha) hks, ?_⟩
    have hroot : (Json.string (scope a)).readKeys = [] := by simp [Json.readKeys]
    rw [Json.readKeys_reads, hroot, List.append_nil]

/-- The keys of `a[b[i]]["k"]`, of which the first one is a chain itself. -/
def nestedKeys : List Expr := [.member (.name "b") (.name "i"), .literal (.string "k")]

/-- The chain `a[b[i]]["k"]`, written and read: `b[i]` is the first key of the edit and the inner
one of the read. -/
theorem Target.edit_lossless_nested :
    (Statement.set (Target.ofElements [(Expr.name "a").indexed nestedKeys]) (.name "v")).lower id =
      .ok (.object [("@set", .string (quoted "a")), ("val", .array [.string (quoted "edit"),
        .string "a", .string "v", Json.get (.string "b") (.string "i"), .string (quoted "k")])]) ∧
    ((Expr.name "a").indexed nestedKeys).lowerIn id = .ok
      (((Json.string "a").get (Json.get (.string "b") (.string "i"))).get (.string (quoted "k"))) := by
  have hkeys : ∀ key ∈ nestedKeys, ∃ k, key.lowerIn id = .ok k := by
    simp only [nestedKeys, List.forall_mem_cons]
    exact ⟨⟨_, rfl⟩, ⟨_, rfl⟩, List.forall_mem_nil _⟩
  obtain ⟨hedit, ks, v, hks, hv, hwrite, hreads, -⟩ :=
    Target.edit_lossless.2 id "a" nestedKeys (.name "v") (by decide) hkeys ⟨_, rfl⟩
  obtain rfl : .string "v" = v := Except.ok.inj hv
  cases hks with
  | cons hfirst hothers =>
    cases hothers with
    | cons hsecond hnone =>
      cases hnone
      obtain rfl := Except.ok.inj hfirst
      obtain rfl := Except.ok.inj hsecond
      rw [hedit (List.cons_ne_nil _ _)]
      exact ⟨hwrite, hreads⟩

end Dialogue
