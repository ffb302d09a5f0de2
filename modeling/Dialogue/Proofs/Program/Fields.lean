import Dialogue.Proofs.Program.Faithful
import Dialogue.Proofs.Progress.Lexeme

/-!
# The fields of an object

The fields of an object may repeat a key, the members of a JSON object do not. A key has its place
from its first field and its value from its last one, so the two come from different fields.
`LastWins` says what members a list of fields comes to. Adding one field keeps it
(`LastWins.insert`), and lowering adds one field after the other (`LastWins.of_lowerFields`), each
of which has to be lowered, even if a later one takes its place.
-/

namespace Dialogue

/-! ## One member -/

namespace Json

variable {key : String} {value : Json} {members : List (String × Json)}

/-- Setting a member adds its key at the end, if it is new. -/
theorem keys_insert (key : String) (value : Json) (members : List (String × Json)) :
    (insert key value members).map Prod.fst =
      if key ∈ members.map Prod.fst then members.map Prod.fst
      else members.map Prod.fst ++ [key] := by
  induction members with
  | nil => rfl
  | cons member members ih =>
    rw [insert]
    by_cases hfirst : member.1 = key
    · rw [if_pos hfirst, List.map_cons, List.map_cons, hfirst, if_pos List.mem_cons_self]
    · rw [if_neg hfirst, List.map_cons, List.map_cons, ih]
      by_cases hmem : key ∈ members.map Prod.fst
      · rw [if_pos hmem, if_pos (List.mem_cons_of_mem _ hmem)]
      · rw [if_neg hmem, if_neg (List.not_mem_cons_of_ne_of_not_mem (Ne.symm hfirst) hmem),
          List.cons_append]

theorem nodup_insert (h : (members.map Prod.fst).Nodup) (key : String) (value : Json) :
    ((insert key value members).map Prod.fst).Nodup := by
  rw [keys_insert]
  split
  · exact h
  · rename_i hnew
    refine List.nodup_append.2 ⟨h, List.pairwise_singleton _ _, ?_⟩
    rintro x hx y hy rfl
    exact hnew (List.mem_singleton.1 hy ▸ hx)

theorem lookup_insert_self (key : String) (value : Json) (members : List (String × Json)) :
    (insert key value members).lookup key = some value := by
  induction members with
  | nil => simp [insert]
  | cons member members ih =>
    rw [insert]
    by_cases hfirst : member.1 = key
    · rw [if_pos hfirst, List.lookup_cons_self]
    · have hbeq : (key == member.1) = false := beq_false_of_ne (Ne.symm hfirst)
      rw [if_neg hfirst, List.lookup_cons, hbeq]
      exact ih

theorem lookup_insert_of_ne {other : String} (h : other ≠ key) :
    (insert key value members).lookup other = members.lookup other := by
  induction members with
  | nil => simp [insert, List.lookup_cons, beq_false_of_ne h]
  | cons member members ih =>
    rw [insert]
    by_cases hfirst : member.1 = key
    · have hbeq : (other == member.1) = false := beq_false_of_ne (hfirst ▸ h)
      rw [if_pos hfirst, List.lookup_cons, List.lookup_cons, hbeq, beq_false_of_ne h]
    · rw [if_neg hfirst, List.lookup_cons, List.lookup_cons, ih]

end Json

/-! ## All fields -/

/-- What members the fields of an object come to: a key stands where its first field does and has
the value of its last field. -/
structure LastWins (fields : List (String × Expr)) (members : List (String × Json)) : Prop where
  /-- The keys are those of the fields in backticks, in the order of their first fields. -/
  keys : members.map Prod.fst = (fields.map fun field => quoted field.1).eraseDups
  /-- No key is repeated. -/
  nodup : (members.map Prod.fst).Nodup
  /-- The value of a key is what the last field with that key is lowered to. -/
  value : ∀ key e, fields.reverse.lookup key = some e →
    ∃ value, e.lower = .ok value ∧ members.lookup (quoted key) = some value

namespace LastWins

variable {fields : List (String × Expr)} {members : List (String × Json)}

theorem nil : LastWins [] [] := ⟨rfl, List.nodup_nil, nofun⟩

theorem mem_keys_iff (h : LastWins fields members) (key : String) :
    quoted key ∈ members.map Prod.fst ↔ quoted key ∈ fields.map fun field => quoted field.1 := by
  rw [h.keys, List.mem_eraseDups]

/-- One more field, which is lowered, sets one more member. -/
theorem insert (h : LastWins fields members) (key : String) {e : Expr} {value : Json}
    (hvalue : e.lower = .ok value) :
    LastWins (fields ++ [(key, e)]) (Json.insert (quoted key) value members) := by
  refine ⟨?keys, Json.nodup_insert h.nodup _ _, ?value⟩
  case keys =>
    rw [Json.keys_insert, List.map_append, List.map_singleton, List.eraseDups_append, ← h.keys]
    by_cases hmem : quoted key ∈ fields.map fun field => quoted field.1
    · rw [if_pos ((h.mem_keys_iff key).2 hmem)]
      simp [List.removeAll, hmem]
    · rw [if_neg (mt (h.mem_keys_iff key).1 hmem)]
      simp [List.removeAll, hmem, List.eraseDups_cons]
  case value =>
    intro key' e' hlast
    rw [List.reverse_append, List.reverse_singleton, List.singleton_append] at hlast
    by_cases hkey : key' = key
    · subst hkey
      rw [List.lookup_cons_self] at hlast
      cases hlast
      exact ⟨value, hvalue, Json.lookup_insert_self _ _ _⟩
    · rw [List.lookup_cons, beq_false_of_ne hkey] at hlast
      obtain ⟨value', hvalue', hlookup⟩ := h.value key' e' hlast
      exact ⟨value', hvalue', by rw [Json.lookup_insert_of_ne (mt quoted_inj hkey), hlookup]⟩

/-- Lowering further fields adds them to those that the given members come from. -/
theorem of_lowerFields {before : List (String × Expr)} {all : List (String × Json)}
    (h : LastWins before members) (hall : Expr.lowerFields members fields = .ok all) :
    LastWins (before ++ fields) all := by
  induction fields generalizing before members with
  | nil =>
    cases hall
    rw [List.append_nil]
    exact h
  | cons field fields ih =>
    obtain ⟨key, e⟩ := field
    simp only [Expr.lowerFields, bind_eq_ok_iff] at hall
    obtain ⟨value, hvalue, hothers⟩ := hall
    rw [List.append_cons]
    exact ih (h.insert key hvalue) hothers

end LastWins

/-! ## Which fields are lowered -/

/-- The members so far have no part in whether fields are lowered. -/
theorem Expr.exists_lowerFields {fields : List (String × Expr)}
    (h : ∀ field ∈ fields, ∃ value, field.2.lower = .ok value) (members : List (String × Json)) :
    ∃ all, Expr.lowerFields members fields = .ok all := by
  induction fields generalizing members with
  | nil => exact ⟨members, rfl⟩
  | cons field fields ih =>
    obtain ⟨⟨value, hvalue⟩, hothers⟩ := List.forall_mem_cons.1 h
    obtain ⟨all, hall⟩ := ih hothers (Json.insert (quoted field.1) value members)
    exact ⟨all, by rw [Expr.lowerFields, hvalue]; exact hall⟩

/-- The first field that is not lowered gives its problem to the whole object. -/
theorem Expr.lowerFields_eq_error_iff {fields : List (String × Expr)}
    {members : List (String × Json)} {problem : Problem} :
    Expr.lowerFields members fields = .error problem ↔
      ∃ before field after, fields = before ++ field :: after ∧
        (∀ earlier ∈ before, ∃ value, earlier.2.lower = .ok value) ∧
        field.2.lower = .error problem := by
  induction fields generalizing members with
  | nil =>
    constructor
    · intro h
      cases h
    · rintro ⟨before, field, after, h, -⟩
      exact absurd h.symm (List.append_ne_nil_of_right_ne_nil _ (List.cons_ne_nil _ _))
  | cons first fields ih =>
    rw [Expr.lowerFields]
    cases hfirst : first.2.lower with
    | error found =>
      constructor
      · intro h
        cases h
        exact ⟨[], first, fields, rfl, nofun, hfirst⟩
      · rintro ⟨before, field, after, heq, hbefore, hfield⟩
        cases before with
        | nil =>
          cases heq
          rw [← hfirst, hfield]
          rfl
        | cons earlier before =>
          cases heq
          obtain ⟨value, hvalue⟩ := hbefore _ List.mem_cons_self
          rw [hfirst] at hvalue
          cases hvalue
    | ok value =>
      refine (@ih (Json.insert (quoted first.1) value members)).trans ?_
      constructor
      · rintro ⟨before, field, after, rfl, hbefore, hfield⟩
        exact ⟨first :: before, field, after, rfl,
          List.forall_mem_cons.2 ⟨⟨value, hfirst⟩, hbefore⟩, hfield⟩
      · rintro ⟨before, field, after, heq, hbefore, hfield⟩
        cases before with
        | nil =>
          cases heq
          rw [hfirst] at hfield
          cases hfield
        | cons earlier before =>
          cases heq
          exact ⟨before, field, after, rfl, (List.forall_mem_cons.1 hbefore).2, hfield⟩

theorem Expr.lower_object_eq_error_iff {fields : List (String × Expr)} {problem : Problem} :
    (Expr.object fields).lower = .error problem ↔
      Expr.lowerFields [] fields = .error problem := by
  rw [Expr.lower]
  cases Expr.lowerFields [] fields with
  | error found =>
    constructor
    · intro h
      cases h
      rfl
    · intro h
      cases h
      rfl
  | ok members =>
    constructor
    · intro h
      cases h
    · intro h
      cases h

/-- An object whose fields are all lowered becomes an object in which each key stands once, at the
place of its first field and with the value of its last one. Otherwise the first field that is not
lowered gives its problem, even if a later field has the same key. -/
theorem Expr.lower_object_lastWins (fields : List (String × Expr)) :
    ((∀ field ∈ fields, ∃ value, field.2.lower = .ok value) →
      ∃ members, (Expr.object fields).lower = .ok (.object members) ∧ LastWins fields members) ∧
    ∀ problem, (Expr.object fields).lower = .error problem ↔
      ∃ before field after, fields = before ++ field :: after ∧
        (∀ earlier ∈ before, ∃ value, earlier.2.lower = .ok value) ∧
        field.2.lower = .error problem := by
  refine ⟨?_, fun problem => ?_⟩
  · intro h
    obtain ⟨members, hmembers⟩ := Expr.exists_lowerFields h []
    refine ⟨members, ?_, LastWins.nil.of_lowerFields hmembers⟩
    rw [Expr.lower, hmembers]
    rfl
  · rw [Expr.lower_object_eq_error_iff, Expr.lowerFields_eq_error_iff]

/-- Fields that repeat a key, with another one between. -/
def repeated : List (String × Expr) := [("a", .name "x"), ("b", .name "y"), ("a", .name "z")]

/-- A repeated key keeps its first place and takes the last value. A field that is not lowered is
not made good by a later one of its key. -/
theorem Expr.lower_object_lastWins_repeated :
    (∃ members, (Expr.object repeated).lower = .ok (.object members) ∧
      members.map Prod.fst = ["`a`", "`b`"] ∧ members.lookup "`a`" = some (.string "z")) ∧
    (Expr.object [("a", .call (.name "exists") []), ("a", .name "b")]).lower =
      .error .existsWithoutArgument := by
  have hnames : ∀ field ∈ repeated, ∃ value, field.2.lower = .ok value := by
    simp [repeated, Expr.lower]
  refine ⟨?_, ?_⟩
  · obtain ⟨members, hlower, hwins⟩ := (Expr.lower_object_lastWins repeated).1 hnames
    obtain ⟨value, hvalue, hlookup⟩ := hwins.value "a" (.name "z") rfl
    cases hvalue
    exact ⟨members, hlower, hwins.keys.trans (by decide), hlookup⟩
  · exact ((Expr.lower_object_lastWins _).2 _).2 ⟨[], _, _, rfl, List.forall_mem_nil _, rfl⟩

end Dialogue
