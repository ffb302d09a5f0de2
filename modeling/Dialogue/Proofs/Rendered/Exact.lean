import Dialogue.Proofs.Program.Grammar
import Dialogue.Proofs.Rendered.ReadBack

/-!
# Programs are exact

The compact text of an exact value is read back as that value. A value is exact if each number in it
is kept as an integer and if no object in it repeats a key. Of a program only the first has to be
asked: its grammar has the keys of each object, and those in expressions are different
(`Json.IsProgram.exact`). What is reported of a failure is always exact (`Failure.exact_toJson`).
-/

namespace Dialogue

namespace Json

/-- A value in which each number is kept as an integer, whatever the keys of its objects are. -/
inductive Whole : Json → Prop where
  | null : Whole .null
  | bool (b : Bool) : Whole (.bool b)
  | integer (n : Int) : Whole (.integer n)
  | string (s : String) : Whole (.string s)
  | array {values : List Json} (h : ∀ value ∈ values, Whole value) : Whole (.array values)
  | object {members : List (String × Json)} (h : ∀ m ∈ members, Whole m.2) :
    Whole (.object members)

theorem whole_array {values : List Json} :
    Whole (.array values) ↔ ∀ value ∈ values, Whole value := by
  constructor
  · intro h
    cases h with
    | array h => exact h
  · exact .array

theorem whole_object {members : List (String × Json)} :
    Whole (.object members) ↔ ∀ m ∈ members, Whole m.2 := by
  constructor
  · intro h
    cases h with
    | object h => exact h
  · exact .object

theorem exact_array {values : List Json} :
    Exact (.array values) ↔ ∀ value ∈ values, Exact value := by
  constructor
  · intro h
    cases h with
    | array h => exact h
  · exact .array

theorem exact_object {members : List (String × Json)} :
    Exact (.object members) ↔ (members.map Prod.fst).Nodup ∧ ∀ m ∈ members, Exact m.2 := by
  constructor
  · intro h
    cases h with
    | object nodup h => exact ⟨nodup, h⟩
  · rintro ⟨nodup, h⟩
    exact .object nodup h

theorem whole_block {statements : List Json} {members : List (String × Json)} :
    Whole (.block statements members) ↔
      (∀ s ∈ statements, Whole s) ∧ ∀ m ∈ members, Whole m.2 := by
  rw [block, whole_object, List.forall_mem_cons, whole_array]

theorem whole_fork {branches : List Json} {members : List (String × Json)} :
    Whole (.fork branches members) ↔ (∀ b ∈ branches, Whole b) ∧ ∀ m ∈ members, Whole m.2 := by
  rw [fork, whole_object, List.forall_mem_cons, whole_array]

theorem exact_block {statements : List Json} {members : List (String × Json)} :
    Exact (.block statements members) ↔ ("@do" :: members.map Prod.fst).Nodup ∧
      (∀ s ∈ statements, Exact s) ∧ ∀ m ∈ members, Exact m.2 := by
  rw [block, exact_object, List.map_cons, List.forall_mem_cons, exact_array]

theorem exact_fork {branches : List Json} {members : List (String × Json)} :
    Exact (.fork branches members) ↔ ("@fork" :: members.map Prod.fst).Nodup ∧
      (∀ b ∈ branches, Exact b) ∧ ∀ m ∈ members, Exact m.2 := by
  rw [fork, exact_object, List.map_cons, List.forall_mem_cons, exact_array]

/-! ## Expressions -/

theorem IsExpr.exact {e : Json} (h : IsExpr e) (hwhole : Whole e) : Exact e := by
  induction h with
  | null => exact .null
  | bool value => exact .bool value
  | integer value => exact .integer value
  | real value => cases hwhole
  | string h => exact .string _
  | array hne h ih => exact .array fun e he => ih e he (whole_array.1 hwhole e he)
  | object hkeys nodup h ih => exact .object nodup fun m hm => ih m hm (whole_object.1 hwhole m hm)

theorem IsQuoted.exact {j : Json} (h : IsQuoted j) : Exact j := by
  obtain ⟨text, rfl⟩ := h
  exact .string _

theorem IsTarget.exact {j : Json} (h : IsTarget j) : Exact j := by
  cases h with
  | name h => exact h.exact
  | names h => exact .array fun target htarget => (h target htarget).exact

theorem IsCall.exact {j : Json} (h : IsCall j) (hwhole : Whole j) : Exact j := by
  cases h with
  | intro hname hargs =>
    simp only [whole_object, whole_array, list, List.forall_mem_cons] at hwhole
    obtain ⟨hwholeName, ⟨-, hwholeArgs⟩, -⟩ := hwhole
    simp only [exact_object, exact_array, list, List.forall_mem_cons]
    exact ⟨by simp, hname.exact hwholeName,
      ⟨.string _, fun e he => (hargs e he).exact (hwholeArgs e he)⟩, List.forall_mem_nil _⟩

/-! ## Statements -/

theorem exact_awaiting (event : String) : ∀ m ∈ awaiting event, Exact m.2 := by
  rw [awaiting, List.forall_mem_singleton]
  exact .array (List.forall_mem_singleton.2 (.string event))

theorem IsScheme.exact {members : List (String × Json)} (h : IsScheme members)
    (hwhole : ∀ m ∈ members, Whole m.2) : ∀ m ∈ members, Exact m.2 := by
  cases h with
  | none => nofun
  | some h =>
    rw [List.forall_mem_singleton] at hwhole ⊢
    exact h.exact hwhole

theorem IsScheme.nodup {members : List (String × Json)} (h : IsScheme members) :
    ("@fork" :: members.map Prod.fst).Nodup := by
  cases h with
  | none => decide
  | some h => exact (by decide : ["@fork", "scheme"].Nodup)

theorem IsScheme.nodup_awaiting {members : List (String × Json)} (h : IsScheme members)
    (event : String) : ("@fork" :: (members ++ awaiting event).map Prod.fst).Nodup := by
  cases h with
  | none => exact (by decide : ["@fork", "await"].Nodup)
  | some h => exact (by decide : ["@fork", "scheme", "await"].Nodup)

mutual

/-- A statement whose numbers are integers is exact. -/
theorem IsStatement.exact {o : Outline} {j : Json} (h : IsStatement o j) (hwhole : Whole j) :
    Exact j := by
  cases h with
  | fork hbranches hscheme =>
    obtain ⟨hwholeBranches, hwholeScheme⟩ := whole_fork.1 hwhole
    exact exact_fork.2 ⟨hscheme.nodup, AreBranches.exact hbranches hwholeBranches,
      hscheme.exact hwholeScheme⟩
  | input hbranches hscheme =>
    obtain ⟨hwholeBranches, hwholeMembers⟩ := whole_fork.1 hwhole
    obtain ⟨hwholeScheme, -⟩ := List.forall_mem_append.1 hwholeMembers
    exact exact_fork.2 ⟨hscheme.nodup_awaiting _, AreBranches.exact hbranches hwholeBranches,
      List.forall_mem_append.2 ⟨hscheme.exact hwholeScheme, exact_awaiting _⟩⟩
  | await hbody hcondition =>
    obtain ⟨hwholeBody, hwholeCondition⟩ := whole_block.1 hwhole
    rw [List.forall_mem_singleton] at hwholeCondition
    exact exact_block.2 ⟨by simp, AreStatements.exact hbody hwholeBody,
      List.forall_mem_singleton.2 (hcondition.exact hwholeCondition)⟩
  | once hbody =>
    obtain ⟨hwholeBody, -⟩ := whole_block.1 hwhole
    exact exact_block.2 ⟨by simp, AreStatements.exact hbody hwholeBody,
      List.forall_mem_singleton.2 (.bool true)⟩
  | perform verb hvalue =>
    rw [whole_object, List.forall_mem_singleton] at hwhole
    exact .object (by simp) (List.forall_mem_singleton.2 (hvalue.exact hwhole))
  | set htarget hvalue =>
    simp only [whole_object, List.forall_mem_cons] at hwhole
    simp only [exact_object, List.forall_mem_cons]
    exact ⟨by simp, htarget.exact, hvalue.exact hwhole.2.1, List.forall_mem_nil _⟩
  | run hcall =>
    simp only [whole_block, List.forall_mem_cons] at hwhole
    exact exact_block.2 ⟨by simp, List.forall_mem_singleton.2 (hcall.exact hwhole.1.1),
      List.forall_mem_nil _⟩
  | handledRun hcall hbranches hscheme =>
    simp only [whole_block, whole_fork, List.forall_mem_cons] at hwhole
    obtain ⟨⟨hwholeCall, ⟨hwholeBranches, hwholeMembers⟩, -⟩, -⟩ := hwhole
    obtain ⟨hwholeScheme, -⟩ := List.forall_mem_append.1 hwholeMembers
    have hfork := exact_fork.2 ⟨hscheme.nodup_awaiting "return",
      AreBranches.exact hbranches hwholeBranches,
      List.forall_mem_append.2 ⟨hscheme.exact hwholeScheme, exact_awaiting _⟩⟩
    exact exact_block.2 ⟨by simp,
      List.forall_mem_cons.2 ⟨hcall.exact hwholeCall, List.forall_mem_singleton.2 hfork⟩,
      List.forall_mem_nil _⟩
  | use hname himports =>
    simp only [whole_object, List.forall_mem_cons] at hwhole
    simp only [exact_object, List.forall_mem_cons]
    exact ⟨by simp, hname.exact hwhole.1, .array fun j hj => (himports j hj).exact,
      List.forall_mem_nil _⟩
  | define hnames hbody =>
    simp only [whole_object, whole_block, List.forall_mem_cons] at hwhole
    simp only [exact_object, exact_block, List.forall_mem_cons]
    exact ⟨by simp, .array fun j hj => (hnames j hj).exact,
      ⟨by simp, AreStatements.exact hbody hwhole.2.1.1, List.forall_mem_nil _⟩,
      List.forall_mem_nil _⟩

theorem AreBranches.exact {arms : List (Arm Outline)} {branches : List Json}
    (h : AreBranches arms branches) (hwhole : ∀ b ∈ branches, Whole b) :
    ∀ b ∈ branches, Exact b := by
  cases h with
  | nil => nofun
  | cons hbody hcondition hbranches =>
    obtain ⟨hwholeBranch, hwholeOthers⟩ := List.forall_mem_cons.1 hwhole
    obtain ⟨hwholeBody, hwholeCondition⟩ := whole_block.1 hwholeBranch
    refine List.forall_mem_cons.2 ⟨?_, AreBranches.exact hbranches hwholeOthers⟩
    have hexact := AreStatements.exact hbody hwholeBody
    cases hcondition with
    | none => exact exact_block.2 ⟨by simp, hexact, List.forall_mem_nil _⟩
    | some hcondition =>
      rw [List.forall_mem_singleton] at hwholeCondition
      exact exact_block.2 ⟨by simp, hexact,
        List.forall_mem_singleton.2 (hcondition.exact hwholeCondition)⟩

theorem AreStatements.exact {outlines : List Outline} {statements : List Json}
    (h : AreStatements outlines statements) (hwhole : ∀ s ∈ statements, Whole s) :
    ∀ s ∈ statements, Exact s := by
  cases h with
  | nil => nofun
  | cons hfirst hothers =>
    obtain ⟨hwholeFirst, hwholeOthers⟩ := List.forall_mem_cons.1 hwhole
    exact List.forall_mem_cons.2
      ⟨IsStatement.exact hfirst hwholeFirst, AreStatements.exact hothers hwholeOthers⟩

end

/-- A program whose numbers are integers is exact: no object in it repeats a key. -/
theorem IsProgram.exact {outlines : List Outline} {program : Json} (h : IsProgram outlines program)
    (hwhole : Whole program) : Exact program := by
  cases h with
  | block hstatements =>
    obtain ⟨hwholeStatements, -⟩ := whole_block.1 hwhole
    exact exact_block.2 ⟨by simp, hstatements.exact hwholeStatements, List.forall_mem_nil _⟩
  | single hshape hstatement => exact hstatement.exact hwhole

end Json

/-- What is reported of a failure is exact. -/
theorem Failure.exact_toJson (failure : Failure) : failure.toJson.Exact := by
  cases failure with
  | reading diagnostic =>
    refine .object (by simp) ?_
    simp only [List.forall_mem_cons]
    exact ⟨.string _, .string _, .integer _, .integer _, .string _, List.forall_mem_nil _⟩
  | lowering problem =>
    refine .object (by simp) ?_
    simp only [List.forall_mem_cons]
    exact ⟨.string _, .string _, .null, .null, List.forall_mem_nil _⟩

end Dialogue
