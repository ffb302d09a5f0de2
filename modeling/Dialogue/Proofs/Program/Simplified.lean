import Dialogue.Lowering.Statement
import Dialogue.Proofs.Progress.Lexeme

/-!
# Programs that are a single fork

A program that is a block of one fork is written as that fork alone. Nothing is lost by it: a fork
has the key of a fork, and a block has not, so one sees from the result whether it was a block
(`Json.simplify_block_inj`). Of all statements only a fork and an input lower to an object with that
key (`Statement.hasFork_lower`), which tells the scripts that are written so.
-/

namespace Dialogue

namespace Json

/-- Whether a value is an object with the key of a fork. -/
def hasFork (j : Json) : Bool := (j.member? "@fork").isSome

theorem hasFork_block (statements : List Json) : (block statements []).hasFork = false := rfl

/-! ## What simplifying does to a value -/

theorem singleFork?_eq_some_iff {program statement : Json} :
    program.singleFork? = some statement ↔
      program = block [statement] [] ∧ statement.hasFork = true := by
  constructor
  · intro h
    rw [singleFork?.eq_def] at h
    split at h
    · split at h
      · rename_i hfork
        cases h
        exact ⟨by rw [hfork.1]; rfl, hfork.2⟩
      · cases h
    · cases h
  · rintro ⟨rfl, hfork⟩
    exact if_pos ⟨rfl, hfork⟩

/-- Either a value is a block of one fork and becomes this fork, or it stays as it is. -/
theorem simplify_cases (program : Json) :
    (∃ statement, program = block [statement] [] ∧ statement.hasFork = true ∧
      program.simplify = statement) ∨
    program.singleFork? = none ∧ program.simplify = program := by
  rw [simplify]
  cases hsingle : program.singleFork? with
  | none => exact Or.inr ⟨rfl, rfl⟩
  | some statement =>
    obtain ⟨hprogram, hfork⟩ := singleFork?_eq_some_iff.1 hsingle
    exact Or.inl ⟨statement, hprogram, hfork, rfl⟩

/-- A value with the key of a fork is not simplified. -/
theorem simplify_of_hasFork {j : Json} (h : j.hasFork = true) : j.simplify = j := by
  rcases simplify_cases j with ⟨statement, rfl, -⟩ | ⟨-, hsame⟩
  · cases h
  · exact hsame

theorem simplify_simplify (j : Json) : j.simplify.simplify = j.simplify := by
  rcases simplify_cases j with ⟨statement, -, hfork, hsimple⟩ | ⟨-, hsame⟩
  · rw [hsimple, simplify_of_hasFork hfork]
  · rw [hsame, hsame]

theorem simplify_block_singleton {statement : Json} (h : statement.hasFork = true) :
    (block [statement] []).simplify = statement := by
  rw [simplify, singleFork?_eq_some_iff.2 ⟨rfl, h⟩, Option.getD_some]

theorem simplify_block_ne_iff {statements : List Json} :
    (block statements []).simplify ≠ block statements [] ↔
      ∃ statement, statements = [statement] ∧ statement.hasFork = true := by
  constructor
  · intro hne
    rcases simplify_cases (block statements []) with ⟨statement, hblock, hfork, -⟩ | ⟨-, hsame⟩
    · cases hblock
      exact ⟨statement, rfl, hfork⟩
    · exact absurd hsame hne
  · rintro ⟨statement, rfl, hfork⟩ hsame
    rw [simplify_block_singleton hfork] at hsame
    rw [hsame] at hfork
    cases hfork

/-- A block can be told from what simplifying makes of it. -/
theorem simplify_block_inj {statements statements' : List Json}
    (h : (block statements []).simplify = (block statements' []).simplify) :
    block statements [] = block statements' [] := by
  rcases simplify_cases (block statements []) with ⟨j, hblock, hfork, hsimple⟩ | ⟨-, hsame⟩
  · rcases simplify_cases (block statements' []) with ⟨j', hblock', -, hsimple'⟩ | ⟨-, hsame'⟩
    · rw [hblock, hblock', ← hsimple, ← hsimple', h]
    · -- one side is a fork and the other one still a block
      rw [← hsimple, h, hsame', hasFork_block] at hfork
      cases hfork
  · rcases simplify_cases (block statements' []) with ⟨j', -, hfork', hsimple'⟩ | ⟨-, hsame'⟩
    · rw [← hsimple', ← h, hsame, hasFork_block] at hfork'
      cases hfork'
    · rw [← hsame, h, hsame']

end Json

/-! ## Which statements become a fork -/

/-- Whether a statement is a fork, or an input with its fork. -/
def Statement.isChoice : Statement → Bool
  | .fork _ => true
  | .input _ _ => true
  | _ => false

theorem Fork.hasFork_lower {scope : Scope} {members : List (String × Json)}
    {choice : Fork Statement} {j : Json} (h : Fork.lower scope members choice = .ok j) :
    j.hasFork = true := by
  obtain ⟨scheme, branches⟩ := choice
  simp only [Fork.lower, bind_eq_ok_iff, Except.ok.injEq] at h
  obtain ⟨lowered, -, data, -, rfl⟩ := h
  rfl

/-- Of all statements, forks and inputs alone lower to a value with the key of a fork: the fork of a
`run` lies inside a block. -/
theorem Statement.hasFork_lower {scope : Scope} {s : Statement} {j : Json}
    (h : s.lower scope = .ok j) : j.hasFork = s.isChoice := by
  cases s with
  | fork choice => exact Fork.hasFork_lower h
  | input result choice => exact Fork.hasFork_lower h
  | await condition body =>
    simp only [Statement.lower, bind_eq_ok_iff, Except.ok.injEq] at h
    obtain ⟨statements, -, value, -, rfl⟩ := h
    rfl
  | once body =>
    simp only [Statement.lower, bind_eq_ok_iff, Except.ok.injEq] at h
    obtain ⟨statements, -, rfl⟩ := h
    rfl
  | perform verb value =>
    simp only [Statement.lower, bind_eq_ok_iff, Except.ok.injEq] at h
    obtain ⟨value, -, rfl⟩ := h
    cases verb <;> rfl
  | set target value =>
    simp only [Statement.lower, Target.lowerAssignment, bind_eq_ok_iff, Except.ok.injEq] at h
    obtain ⟨⟨target, value⟩, -, rfl⟩ := h
    rfl
  | run name args result choice =>
    cases result with
    | none =>
      simp only [Statement.lower, bind_eq_ok_iff, Except.ok.injEq] at h
      obtain ⟨call, -, rfl⟩ := h
      rfl
    | some result =>
      cases choice with
      | none =>
        simp only [Statement.lower, bind_eq_ok_iff, Except.ok.injEq] at h
        obtain ⟨call, -, rfl⟩ := h
        rfl
      | some choice =>
        simp only [Statement.lower, bind_eq_ok_iff, Except.ok.injEq] at h
        obtain ⟨call, -, handler, -, rfl⟩ := h
        rfl
  | use name imports =>
    simp only [Statement.lower, bind_eq_ok_iff, Except.ok.injEq] at h
    obtain ⟨name, -, rfl⟩ := h
    rfl
  | define name params body =>
    simp only [Statement.lower, bind_eq_ok_iff, Except.ok.injEq] at h
    obtain ⟨statements, -, rfl⟩ := h
    rfl

/-! ## Scripts -/

theorem Script.lower_eq_ok {script : Script} {program : Json} (h : script.lower = .ok program) :
    ∃ statements, Statement.lowerEach id script = .ok statements ∧
      program = .block statements [] := by
  simp only [Script.lower, bind_eq_ok_iff, Except.ok.injEq] at h
  obtain ⟨statements, hstatements, rfl⟩ := h
  exact ⟨statements, hstatements, rfl⟩

theorem Statement.lowerEach_singleton {scope : Scope} {s : Statement} {found : List Json} :
    Statement.lowerEach scope [s] = .ok found ↔ ∃ j, s.lower scope = .ok j ∧ found = [j] := by
  simp only [Statement.lowerEach, bind_eq_ok_iff, Except.ok.injEq]
  constructor
  · rintro ⟨j, hs, others, rfl, rfl⟩
    exact ⟨j, hs, rfl⟩
  · rintro ⟨j, hs, rfl⟩
    exact ⟨j, hs, [], rfl, rfl⟩

theorem Statement.length_lowerEach {scope : Scope} {statements : List Statement}
    {found : List Json} (h : Statement.lowerEach scope statements = .ok found) :
    found.length = statements.length := by
  induction statements generalizing found with
  | nil =>
    cases h
    rfl
  | cons s statements ih =>
    simp only [Statement.lowerEach, bind_eq_ok_iff, Except.ok.injEq] at h
    obtain ⟨first, -, others, hothers, rfl⟩ := h
    rw [List.length_cons, List.length_cons, ih hothers]

/-- Simplifying is lossless. It does nothing to a value that it has simplified; the scripts whose
program it changes are those of a single fork or a single input, whose program becomes that
statement's; and two scripts with the same simplified program have the same program. -/
theorem Script.simplify_lossless :
    (∀ j : Json, j.simplify.simplify = j.simplify) ∧
    (∀ (script : Script) (program : Json), script.lower = .ok program →
      (program.simplify ≠ program ↔ ∃ s, script = [s] ∧ s.isChoice = true) ∧
      ∀ s, script = [s] → s.isChoice = true → s.lower id = .ok program.simplify) ∧
    ∀ (script script' : Script) (program program' : Json), script.lower = .ok program →
      script'.lower = .ok program' → program.simplify = program'.simplify →
      program = program' := by
  refine ⟨Json.simplify_simplify, ?_, ?_⟩
  · intro script program h
    obtain ⟨statements, hstatements, rfl⟩ := Script.lower_eq_ok h
    rw [Json.simplify_block_ne_iff]
    refine ⟨⟨?_, ?_⟩, ?_⟩
    · rintro ⟨j, rfl, hfork⟩
      obtain ⟨s, rfl⟩ := List.length_eq_one_iff.1 (Statement.length_lowerEach hstatements).symm
      obtain ⟨_, hs, hj⟩ := Statement.lowerEach_singleton.1 hstatements
      cases hj
      exact ⟨s, rfl, by rw [← Statement.hasFork_lower hs, hfork]⟩
    · rintro ⟨s, rfl, hchoice⟩
      obtain ⟨j, hs, rfl⟩ := Statement.lowerEach_singleton.1 hstatements
      exact ⟨j, rfl, by rw [Statement.hasFork_lower hs, hchoice]⟩
    · rintro s rfl hchoice
      obtain ⟨j, hs, rfl⟩ := Statement.lowerEach_singleton.1 hstatements
      rw [Json.simplify_block_singleton (by rw [Statement.hasFork_lower hs, hchoice]), hs]
  · intro script script' program program' h h' hsimple
    obtain ⟨statements, -, rfl⟩ := Script.lower_eq_ok h
    obtain ⟨statements', -, rfl⟩ := Script.lower_eq_ok h'
    exact Json.simplify_block_inj hsimple

/-- The program of a single input becomes its fork. -/
theorem Script.simplify_lossless_input :
    (Statement.input "r" (.plain [])).lower id =
        .ok (Json.fork [] [("await", .array [.string "input"])]) ∧
      (Json.block [.fork [] [("await", .array [.string "input"])]] []).simplify ≠
        .block [.fork [] [("await", .array [.string "input"])]] [] := by
  obtain ⟨-, hprograms, -⟩ := Script.simplify_lossless
  obtain ⟨hchanged, hbecomes⟩ := hprograms [.input "r" (.plain [])] _ rfl
  exact ⟨hbecomes _ rfl rfl, hchanged.2 ⟨_, rfl, rfl⟩⟩

end Dialogue
