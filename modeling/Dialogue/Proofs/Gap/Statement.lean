import Dialogue.Proofs.Gap.Expression
import Dialogue.Proofs.Seam.Statement

/-!
# Statements and gaps

Each form of statement reads the two versions of a text alike. The one place where the versions can
part is behind a keyword: whether the keyword is assigned to is decided past blanks only, so a
comment in the second version can hide the sign of the assignment. The second version then reads the
form that the keyword starts, and no such form goes on with a comma or an equals sign: it fails at
the sign.
-/

namespace Dialogue

open Text (isBlank skip skipBlanks scan isPlain)
open Respacing (rel_cases isSome_of_rel)

namespace Reader

section

variable {texts : Respacing} {expr expr' : Reader Expr} {statement statement' : Reader Statement}

/-! ## Blocks and branches -/

/-- The next character past a gap, which a loop over statements or branches looks at. -/
theorem skip_twins_cases {text text' : List Char} (h : texts.Twins text text') :
    (skip text = [] ∧ skip text' = []) ∨
      ∃ c rest rest', skip text = c :: rest ∧ skip text' = c :: rest' := by
  have hskip := h.skip
  cases htext : skip text with
  | nil =>
    rw [htext] at hskip
    exact Or.inl ⟨rfl, hskip.nil⟩
  | cons c rest =>
    rw [htext] at hskip
    rcases hskip.cons with heq | ⟨front, -, -, -, heq⟩ | ⟨-, hblank, -⟩
    · exact Or.inr ⟨c, rest, rest, rfl, heq⟩
    · exact Or.inr ⟨c, rest, _, rfl, heq⟩
    · rw [(Text.skip_eq_cons htext).1] at hblank
      cases hblank

theorem tracking_statements (hstatement : Tracking texts statement statement') {k m : Nat}
    (hkm : k ≤ m) : Tracking texts (statements statement k) (statements statement' m) := by
  induction k generalizing m with
  | zero => exact fun _ _ _ => Tracks.fault
  | succ k ih =>
    obtain ⟨m, rfl⟩ := Nat.exists_eq_succ_of_ne_zero (Nat.ne_zero_of_lt hkm)
    intro text text' h
    rw [statements, statements]
    rcases skip_twins_cases h with ⟨hnil, hnil'⟩ | ⟨c, rest, rest', htext, htext'⟩
    · rw [hnil, hnil']
      exact Tracks.ok _ (.behind [])
    · have hskip := h.skip
      rw [htext, htext'] at hskip ⊢
      dsimp only
      split
      · exact Tracks.ok _ hskip
      · apply (hstatement _ _ hskip).bind
        intro first rest rest' hrest
        apply (ih (Nat.le_of_succ_le_succ hkm) _ _ hrest).bind
        exact fun others rest rest' hrest => Tracks.ok _ hrest

theorem tracking_block (hstatement : Tracking texts statement statement') {n m : Nat}
    (hnm : n ≤ m) : Tracking texts (block statement n) (block statement' m) := by
  intro text text' h
  apply Tracks.expect h (by decide)
  intro rest rest' hrest
  apply (tracking_statements hstatement hnm _ _ hrest).bind
  intro body rest rest' hrest
  apply Tracks.expect hrest.skip (by decide)
  exact fun rest rest' hrest => Tracks.ok _ hrest

theorem eatDefault?_twins {text text' : List Char} (h : texts.Twins text text') :
    Option.Rel texts.Twins (eatDefault? text) (eatDefault? text') := by
  rw [eatDefault?_eq]
  apply h.eatUnless (by decide)
  exact fun rest rest' hrest => hrest.head_any fun _ => isWordPart_of_isBlank

theorem tracking_condition (hexpr : Tracking texts expr expr') :
    Tracking texts (condition expr) (condition expr') := by
  intro text text' h
  rw [condition, condition]
  rcases rel_cases (eatDefault?_twins h) with ⟨hnone, hnone'⟩ | ⟨rest, rest', hsome, hsome', hrest⟩
  · simp only [hnone, hnone', isSome_of_rel (h.eatWord? "if")]
    split
    · exact Tracks.fault
    · apply (hexpr _ _ h).bind
      exact fun found rest rest' hrest => Tracks.ok _ hrest.skip
  · simp only [hsome, hsome', hrest.skip.isSome_eat? (c := '{') (by decide)]
    split
    · exact Tracks.ok _ hrest.skip
    · exact Tracks.fault

theorem tracking_branch (hexpr : Tracking texts expr expr')
    (hstatement : Tracking texts statement statement') {n m : Nat} (hnm : n ≤ m) :
    Tracking texts (branch expr statement n) (branch expr' statement' m) := by
  intro text text' h
  apply (tracking_condition hexpr _ _ h).bind
  intro found rest rest' hrest
  apply (tracking_block hstatement hnm _ _ hrest).bind
  exact fun body rest rest' hrest => Tracks.ok _ hrest

theorem tracking_branchList (hexpr : Tracking texts expr expr')
    (hstatement : Tracking texts statement statement') {n m : Nat} (hnm : n ≤ m) {k j : Nat}
    (hkj : k ≤ j) :
    Tracking texts (branchList expr statement n k) (branchList expr' statement' m j) := by
  induction k generalizing j with
  | zero => exact fun _ _ _ => Tracks.fault
  | succ k ih =>
    obtain ⟨j, rfl⟩ := Nat.exists_eq_succ_of_ne_zero (Nat.ne_zero_of_lt hkj)
    intro text text' h
    rw [branchList, branchList]
    rcases skip_twins_cases h with ⟨hnil, hnil'⟩ | ⟨c, rest, rest', htext, htext'⟩
    · rw [hnil, hnil']
      exact Tracks.ok _ (.behind [])
    · have hskip := h.skip
      rw [htext, htext'] at hskip ⊢
      dsimp only
      split
      · exact Tracks.ok _ hskip
      · apply (tracking_branch hexpr hstatement hnm _ _ hskip).bind
        intro first rest rest' hrest
        apply (ih (Nat.le_of_succ_le_succ hkj) _ _ hrest).bind
        exact fun others rest rest' hrest => Tracks.ok _ hrest

theorem tracking_branches (hexpr : Tracking texts expr expr')
    (hstatement : Tracking texts statement statement') {n m : Nat} (hnm : n ≤ m) :
    Tracking texts (branches expr statement n) (branches expr' statement' m) := by
  intro text text' h
  apply Tracks.expect h (by decide)
  intro rest rest' hrest
  apply (tracking_branchList hexpr hstatement hnm hnm _ _ hrest).bind
  intro found rest rest' hrest
  apply Tracks.expect hrest (by decide)
  exact fun rest rest' hrest => Tracks.ok _ hrest

/-! ## Forms of statements -/

theorem tracking_conditional (hexpr : Tracking texts expr expr')
    (hstatement : Tracking texts statement statement') {n m : Nat} (hnm : n ≤ m) {k j : Nat}
    (hkj : k ≤ j) :
    Tracking texts (conditional expr statement n k) (conditional expr' statement' m j) := by
  have hblock := tracking_block hstatement hnm
  induction k generalizing j with
  | zero => exact fun _ _ _ => Tracks.fault
  | succ k ih =>
    obtain ⟨j, rfl⟩ := Nat.exists_eq_succ_of_ne_zero (Nat.ne_zero_of_lt hkj)
    intro text text' h
    rw [conditional, conditional]
    apply Tracks.expectBlank h
    intro rest rest' hrest
    apply (hexpr _ _ hrest).bind
    intro found rest rest' hrest
    apply (hblock _ _ hrest.skip).bind
    intro body rest rest' hrest
    dsimp only
    rcases rel_cases (hrest.skip.eatWord? "else") with
      ⟨hnone, hnone'⟩ | ⟨after, after', hsome, hsome', hafter⟩
    · rw [hnone, hnone']
      exact Tracks.ok _ hrest
    · simp only [hsome, hsome', hafter.skip.isSome_eat? (c := '{') (by decide)]
      split
      · apply (hblock _ _ hafter.skip).bind
        exact fun last rest rest' hrest => Tracks.ok _ hrest
      · rcases rel_cases (hafter.skip.eatWord? "if") with
          ⟨hnone, -⟩ | ⟨rest, rest', hsome, hsome', hrest⟩
        · rw [hnone]
          exact Tracks.fault
        · rw [hsome, hsome']
          apply (ih (Nat.le_of_succ_le_succ hkj) _ _ hrest).bind
          exact fun others rest rest' hrest => Tracks.ok _ hrest

theorem tracking_schemed (hexpr : Tracking texts expr expr')
    (hstatement : Tracking texts statement statement') {n m : Nat} (hnm : n ≤ m)
    (scheme : List (String × Expr)) :
    Tracking texts (schemed expr statement n scheme) (schemed expr' statement' m scheme) := by
  intro text text' h
  rw [schemed, schemed]
  rcases rel_cases (h.eatWord? "if") with ⟨hnone, hnone'⟩ | ⟨rest, rest', hsome, hsome', hrest⟩
  · rw [hnone, hnone']
    rcases rel_cases (h.eatWord? "fork") with ⟨hnone, -⟩ | ⟨rest, rest', hsome, hsome', hrest⟩
    · rw [hnone]
      exact Tracks.fault
    · rw [hsome, hsome']
      apply (tracking_branches hexpr hstatement hnm _ _ hrest.skip).bind
      exact fun found rest rest' hrest => Tracks.ok _ hrest
  · rw [hsome, hsome']
    apply (tracking_conditional hexpr hstatement hnm hnm _ _ hrest).bind
    exact fun found rest rest' hrest => Tracks.ok _ hrest

theorem tracking_input (hexpr : Tracking texts expr expr')
    (hstatement : Tracking texts statement statement') {n m : Nat} (hnm : n ≤ m) :
    Tracking texts (input expr statement n) (input expr' statement' m) := by
  intro text text' h
  rw [input, input]
  dsimp only
  rcases rel_cases (eatArrow?_twins h) with ⟨hnone, -⟩ | ⟨rest, rest', hsome, hsome', hrest⟩
  · rw [hnone]
    exact Tracks.fault
  · rw [hsome, hsome']
    apply (tracking_identifier _ _ hrest.skip).bind
    intro result rest rest' hrest
    apply (tracking_branches hexpr hstatement hnm _ _ hrest.skip).bind
    exact fun found rest rest' hrest => Tracks.ok _ hrest

/-! ## Other programs and modules -/

theorem tracking_runArguments (hexpr : Tracking texts expr expr') {n m : Nat} (hnm : n ≤ m)
    (name : Expr) : Tracking texts (runArguments expr n name) (runArguments expr' m name) := by
  intro text text' h
  rw [runArguments, runArguments]
  rcases rel_cases (h.skip.eat? (c := '(') (by decide)) with
    ⟨hnone, hnone'⟩ | ⟨rest, rest', hsome, hsome', hrest⟩
  · rw [hnone, hnone']
    exact Tracks.ok _ h
  · rw [hsome, hsome']
    apply (tracking_enclosed (by decide) hexpr hnm _ _ hrest).bind
    exact fun args rest rest' hrest => Tracks.ok _ hrest

theorem tracking_run (hexpr : Tracking texts expr expr')
    (hstatement : Tracking texts statement statement') {n m : Nat} (hnm : n ≤ m) :
    Tracking texts (run expr statement n) (run expr' statement' m) := by
  intro text text' h
  rw [run, run]
  apply (hexpr _ _ h.skip).bind
  intro name rest rest' hrest
  apply (tracking_runArguments hexpr hnm name _ _ hrest).bind
  rintro ⟨name, args⟩ rest rest' hrest
  dsimp only
  rcases rel_cases (eatArrow?_twins hrest) with
    ⟨hnone, hnone'⟩ | ⟨after, after', hsome, hsome', hafter⟩
  · rw [hnone, hnone']
    exact Tracks.ok _ hrest
  · rw [hsome, hsome']
    apply (tracking_identifier _ _ hafter.skip).bind
    intro result rest rest' hrest
    dsimp only
    rw [hrest.skip.isSome_eat? (by decide)]
    split
    · apply (tracking_branches hexpr hstatement hnm _ _ hrest.skip).bind
      exact fun found rest rest' hrest => Tracks.ok _ hrest
    · exact Tracks.ok _ hrest

theorem tracking_imports {k m : Nat} (hkm : k ≤ m) : Tracking texts (imports k) (imports m) := by
  induction k generalizing m with
  | zero => exact fun _ _ _ => Tracks.fault
  | succ k ih =>
    obtain ⟨m, rfl⟩ := Nat.exists_eq_succ_of_ne_zero (Nat.ne_zero_of_lt hkm)
    intro text text' h
    rw [imports, imports]
    apply (tracking_identifier _ _ h.skip).bind
    intro first rest rest' hrest
    dsimp only
    rcases rel_cases (hrest.skip.eat? (c := ',') (by decide)) with
      ⟨hnone, hnone'⟩ | ⟨after, after', hsome, hsome', hafter⟩
    · rw [hnone, hnone']
      exact Tracks.ok _ hrest
    · rw [hsome, hsome']
      apply (ih (Nat.le_of_succ_le_succ hkm) _ _ hafter).bind
      exact fun others rest rest' hrest => Tracks.ok _ hrest

theorem tracking_use {n m : Nat} (hnm : n ≤ m) : Tracking texts (use n) (use m) := by
  intro text text' h
  apply Tracks.expectBlank h
  intro rest rest' hrest
  rw [hrest.isSome_eat? (by decide)]
  split
  · apply (tracking_string _ _ hrest).bind
    intro source rest rest' hrest
    apply Tracks.expectBlank hrest
    intro rest rest' hrest
    apply Tracks.expectWord hrest
    intro rest rest' hrest
    apply (tracking_imports hnm _ _ hrest).bind
    exact fun names rest rest' hrest => Tracks.ok _ hrest
  · exact Tracks.fault

theorem tracking_define (hstatement : Tracking texts statement statement') {n m : Nat}
    (hnm : n ≤ m) : Tracking texts (define statement n) (define statement' m) := by
  intro text text' h
  apply Tracks.expectBlank h
  intro rest rest' hrest
  apply (tracking_identifier _ _ hrest).bind
  intro name rest rest' hrest
  apply Tracks.expect hrest.skip (by decide)
  intro rest rest' hrest
  apply (tracking_enclosed (by decide) tracking_identifier hnm _ _ hrest).bind
  intro params rest rest' hrest
  apply (tracking_block hstatement hnm _ _ hrest.skip).bind
  exact fun body rest rest' hrest => Tracks.ok _ hrest

/-! ## Assignments -/

theorem tracking_targets (hexpr : Tracking texts expr expr') {k m : Nat} (hkm : k ≤ m) :
    Tracking texts (targets expr k) (targets expr' m) := by
  induction k generalizing m with
  | zero => exact fun _ _ _ => Tracks.fault
  | succ k ih =>
    obtain ⟨m, rfl⟩ := Nat.exists_eq_succ_of_ne_zero (Nat.ne_zero_of_lt hkm)
    intro text text' h
    rw [targets, targets]
    apply (hexpr _ _ h.skip).bind
    intro first rest rest' hrest
    dsimp only
    rcases rel_cases (hrest.skip.eat? (c := ',') (by decide)) with
      ⟨hnone, hnone'⟩ | ⟨after, after', hsome, hsome', hafter⟩
    · rw [hnone, hnone']
      exact Tracks.ok _ hrest.skip
    · rw [hsome, hsome']
      apply (ih (Nat.le_of_succ_le_succ hkm) _ _ hafter).bind
      exact fun others rest rest' hrest => Tracks.ok _ hrest

theorem eatAssign?_twins {text text' : List Char} (h : texts.Twins text text') :
    Option.Rel texts.Twins (eatAssign? text) (eatAssign? text') := by
  rw [eatAssign?_eq]
  exact h.eatUnless (by decide) fun rest rest' hrest => hrest.isSome_eat? (by decide)

theorem tracking_assignment (hexpr : Tracking texts expr expr') {n m : Nat} (hnm : n ≤ m) :
    Tracking texts (assignment expr n) (assignment expr' m) := by
  intro text text' h
  rw [assignment, assignment]
  apply (tracking_targets hexpr hnm _ _ h).bind
  intro elements rest rest' hrest
  dsimp only
  rcases rel_cases (eatAssign?_twins hrest) with ⟨hnone, -⟩ | ⟨after, after', hsome, hsome', hafter⟩
  · rw [hnone]
    exact Tracks.fault
  · rw [hsome, hsome']
    apply (hexpr _ _ hafter.skip).bind
    exact fun value rest rest' hrest => Tracks.ok _ hrest

end

/-! ## Signs behind keywords -/

/-- A gap that starts with a blank, and behind it a sign that goes on with an assignment. -/
structure SignBehindGap (text : List Char) : Prop where
  blank : text.head?.any isBlank = true
  sign : ∃ c rest, skip text = c :: rest ∧ (c = ',' ∨ c = '=')

theorem sign_of_assigns {text : List Char} (h : assigns text = true) :
    ∃ c rest, skip text = c :: rest ∧ (c = ',' ∨ c = '=') := by
  have hsign : ∀ {c : Char} {rest : List Char}, eat? c (skipBlanks text) = some rest →
      Text.isSolid c = true → skip text = c :: rest := by
    intro c rest heat hc
    rw [← Text.skip_skipBlanks, eat?_eq_some heat, Text.skip_cons hc]
  rw [assigns, Bool.or_eq_true, Option.isSome_iff_exists, Option.isSome_iff_exists] at h
  rcases h with ⟨rest, heat⟩ | ⟨rest, heat⟩
  · exact ⟨',', rest, hsign heat (by decide), Or.inl rfl⟩
  · rw [eatAssign?] at heat
    split at heat
    · rename_i after hassign
      exact ⟨'=', after, hsign hassign (by decide), Or.inr rfl⟩
    · cases heat

/-- A reader that reads no expression at the sign of an assignment. -/
def RejectsSigns (expr : Reader Expr) : Prop :=
  ∀ c rest, c = ',' ∨ c = '=' → expr (c :: rest) = fault .expectedExpression (c :: rest)

theorem rejectsSigns_operand (expr : Reader Expr) (n k : Nat) :
    RejectsSigns (operand expr n (k + 1)) := by
  rintro c rest (rfl | rfl)
  · rfl
  · rfl

theorem rejectsSigns_binary {tightest : Reader Expr} (h : RejectsSigns tightest) (n : Nat)
    (levels : List (List Operator)) : RejectsSigns (binary tightest n levels) := by
  induction levels with
  | nil => exact h
  | cons level levels ih =>
    intro c rest hc
    rw [binary, ih c rest hc]
    rfl

theorem rejectsSigns_expressionAt (n : Nat) : RejectsSigns (expressionAt (n + 1)) :=
  rejectsSigns_binary (rejectsSigns_operand _ _ _) _ _

theorem expectBlank_eq_skip {text : List Char} (h : text.head?.any isBlank = true)
    (after : String) : expectBlank after text = .ok (skip text) := by
  cases text with
  | nil => cases h
  | cons c rest =>
    have hc : isBlank c = true := h
    rw [expectBlank, if_pos hc, Text.skip_of_isBlank hc]

/-- No form that a keyword starts goes on with the sign of an assignment. -/
theorem keyworded_sign {expr : Reader Expr} (hexpr : RejectsSigns expr)
    (statement : Reader Statement) (n : Nat) (keyword : Keyword) {text : List Char}
    (h : SignBehindGap text) :
    ∃ cause, keyworded expr statement (n + 1) keyword text = .error ⟨cause, skip text⟩ := by
  obtain ⟨c, rest, hskip, hc⟩ := h.sign
  have hfails := hexpr c rest hc
  have hblank := expectBlank_eq_skip h.blank
  have hne : ∀ {d : Char}, d ≠ ',' ∧ d ≠ '=' → eat? d (c :: rest) = none := by
    intro d hd
    apply eat?_ne
    rcases hc with rfl | rfl
    · exact hd.1.symm
    · exact hd.2.symm
  rw [hskip]
  cases keyword with
  | condition =>
    refine ⟨.expectedExpression, ?_⟩
    rw [keyworded, conditional, hblank, ok_bind, hskip, hfails]
    rfl
  | fork =>
    refine ⟨.expected "\x7b", ?_⟩
    rw [keyworded, branches, hskip, expect, hne (by decide)]
    rfl
  | input =>
    refine ⟨.expected "->", ?_⟩
    have harrow : eatText? ['-', '>'] (c :: rest) = none := by
      rw [eatText?, if_neg]
      rcases hc with rfl | rfl
      · decide
      · decide
    rw [keyworded, input, hskip]
    dsimp only
    rw [harrow]
    rfl
  | await =>
    refine ⟨.expectedExpression, ?_⟩
    rw [keyworded, hblank, ok_bind, hskip, hfails]
    rfl
  | once =>
    refine ⟨.expected "\x7b", ?_⟩
    rw [keyworded, block, hskip, expect, hne (by decide)]
    rfl
  | perform verb =>
    refine ⟨.expectedExpression, ?_⟩
    rw [keyworded, hblank, ok_bind, hskip, hfails]
    rfl
  | run =>
    refine ⟨.expectedExpression, ?_⟩
    rw [keyworded, run, hskip, hfails]
    rfl
  | use =>
    refine ⟨.expectedModuleName, ?_⟩
    rw [keyworded, use, hblank, ok_bind, hskip, hne (by decide)]
    rfl
  | define =>
    refine ⟨.expectedIdentifier, ?_⟩
    have hword : word? (c :: rest) = none := by
      rcases hc with rfl | rfl
      · rfl
      · rfl
    rw [keyworded, define, hblank, ok_bind, hskip, identifier, hword]
    rfl

section

variable {texts : Respacing} {text text' : List Char}

/-- Whether a keyword is assigned to is seen alike in both versions, unless the gap stands between
the keyword and what follows it. -/
theorem assigns_twins (h : texts.Twins text text') :
    assigns text = assigns text' ∨
      ∃ blanks, (∀ c ∈ blanks, isBlank c = true) ∧ text = blanks ++ texts.old ∧
        text' = blanks ++ texts.new := by
  cases h with
  | behind rest => exact Or.inl rfl
  | @ahead front suffix code =>
    cases hfront : skipBlanks front with
    | nil =>
      refine Or.inr ⟨front, ?_, rfl, rfl⟩
      have hall : front.takeWhile isBlank = front := by
        have hsplit := List.takeWhile_append_dropWhile (p := isBlank) (l := front)
        rw [skipBlanks] at hfront
        rwa [hfront, List.append_nil] at hsplit
      rw [← hall]
      exact List.all_eq_true.1 List.all_takeWhile
    | cons c rest =>
      have hskip : ∀ back, skipBlanks (front ++ back) = skipBlanks front ++ back := by
        intro back
        rcases skipBlanks_append front with hskip | ⟨hnil, -⟩
        · exact hskip
        · rw [hfront] at hnil
          cases hnil
      have htwins :
          texts.Twins (skipBlanks front ++ texts.old) (skipBlanks front ++ texts.new) := by
        refine .ahead ((List.dropWhile_suffix isBlank).trans suffix) ?_
        rw [skipBlanks, Text.scan_code_dropWhile fun _ => Text.ne_of_isBlank]
        exact code
      rw [assigns, assigns, hskip, hskip, htwins.isSome_eat? (by decide),
        isSome_of_rel (eatAssign?_twins htwins)]
      exact Or.inl rfl

theorem assigns_blanks_append {blanks : List Char} (h : ∀ c ∈ blanks, isBlank c = true)
    (rest : List Char) : assigns (blanks ++ rest) = assigns rest := by
  have hskip : skipBlanks (blanks ++ rest) = skipBlanks rest := by
    rw [skipBlanks, List.dropWhile_append_of_pos h]
    rfl
  rw [assigns, assigns, hskip]

theorem skip_blanks_append {blanks : List Char} (h : ∀ c ∈ blanks, isBlank c = true)
    (rest : List Char) : skip (blanks ++ rest) = skip rest := by
  rw [← Text.skip_skipBlanks, skipBlanks, List.dropWhile_append_of_pos h]
  exact Text.skip_skipBlanks rest

theorem head_blanks_append {blanks : List Char} (h : ∀ c ∈ blanks, isBlank c = true)
    {rest : List Char} (hrest : rest.head?.any isBlank = true) :
    (blanks ++ rest).head?.any isBlank = true := by
  cases blanks with
  | nil => exact hrest
  | cons c blanks => exact h c List.mem_cons_self

/-- The word that a sign is hidden from stands at the end of the front. -/
theorem hides_of_word {keyword : Keyword} {blanks : List Char} (h : texts.Twins text text')
    (hword : word? text = some (keyword.text, blanks ++ texts.old))
    (hword' : word? text' = some (keyword.text, blanks ++ texts.new))
    (hblanks : ∀ c ∈ blanks, isBlank c = true) (hold : assigns texts.old = true)
    (hnew : assigns texts.new = false) : texts.Hides := by
  refine ⟨?_, hold, hnew⟩
  have htext := (word?_eq_some hword).2
  cases h with
  | behind =>
    rw [hword] at hword'
    have hrests := (Prod.mk.inj (Option.some.inj hword')).2
    rw [List.append_cancel_left hrests, hnew] at hold
    cases hold
  | @ahead front suffix code =>
    obtain ⟨start, hstart⟩ := suffix
    rw [← List.append_assoc] at htext
    refine ⟨start, keyword, blanks, ?_, hblanks⟩
    rw [← hstart, List.append_cancel_right htext, List.append_assoc]

/-- The two versions start with the same keyword, or with none; or one of them shows that the
keyword is assigned to, and in the other one a gap hides it. -/
theorem keyword?_twins (h : texts.Twins text text') :
    Option.Rel texts.Alike (keyword? text) (keyword? text') ∨
    (∃ keyword rest, keyword? text = some (keyword, rest) ∧ SignBehindGap rest) ∨
    (texts.Hides ∧ ∃ keyword rest', keyword? text' = some (keyword, rest') ∧ SignBehindGap rest' ∧
      skip rest' = skip texts.new) := by
  rw [keyword?, keyword?]
  rcases rel_cases h.word? with ⟨hnone, hnone'⟩ |
    ⟨⟨word, rest⟩, ⟨word', rest'⟩, hsome, hsome', rfl, hrest⟩
  · rw [hnone, hnone']
    exact Or.inl .none
  rw [hsome, hsome']
  cases hkeyword : Keyword.ofText? word with
  | none =>
    simp only [Option.bind_eq_bind, Option.bind_some, hkeyword, Option.bind_none]
    exact Or.inl .none
  | some keyword =>
    simp only [Option.bind_eq_bind, Option.bind_some, hkeyword]
    rcases assigns_twins hrest with hassigns | ⟨blanks, hblanks, rfl, rfl⟩
    · rw [hassigns]
      split
      · exact Or.inl .none
      · exact Or.inl (.some ⟨rfl, hrest⟩)
    · -- the gap stands behind the keyword, so each version decides on its own gap
      rw [assigns_blanks_append hblanks, assigns_blanks_append hblanks]
      cases hold : assigns texts.old with
      | false =>
        cases hnew : assigns texts.new with
        | false => exact Or.inl (.some ⟨rfl, hrest⟩)
        | true =>
          refine Or.inr (Or.inl ⟨keyword, _, rfl, head_blanks_append hblanks texts.old_blank, ?_⟩)
          rw [skip_blanks_append hblanks, texts.skip_eq]
          exact sign_of_assigns hnew
      | true =>
        cases hnew : assigns texts.new with
        | true => exact Or.inl .none
        | false =>
          rw [← keyword_of_ofText? hkeyword] at hsome hsome'
          refine Or.inr (Or.inr ⟨hides_of_word h hsome hsome' hblanks hold hnew, keyword, _, rfl,
            ⟨head_blanks_append hblanks texts.new_blank, ?_⟩, skip_blanks_append hblanks _⟩)
          rw [skip_blanks_append hblanks, ← texts.skip_eq]
          exact sign_of_assigns hold

end

section

variable {texts : Respacing} {expr expr' : Reader Expr} {statement statement' : Reader Statement}

/-! ## All forms -/

theorem tracking_keyworded (hexpr : Tracking texts expr expr')
    (hstatement : Tracking texts statement statement') {n m : Nat} (hnm : n ≤ m)
    (keyword : Keyword) :
    Tracking texts (keyworded expr statement n keyword) (keyworded expr' statement' m keyword) := by
  have hblock := tracking_block hstatement hnm
  intro text text' h
  cases keyword with
  | condition =>
    apply (tracking_conditional hexpr hstatement hnm hnm _ _ h).bind
    exact fun found rest rest' hrest => Tracks.ok _ hrest
  | fork =>
    apply (tracking_branches hexpr hstatement hnm _ _ h.skip).bind
    exact fun found rest rest' hrest => Tracks.ok _ hrest
  | input => exact tracking_input hexpr hstatement hnm _ _ h
  | await =>
    apply Tracks.expectBlank h
    intro rest rest' hrest
    apply (hexpr _ _ hrest).bind
    intro found rest rest' hrest
    apply (hblock _ _ hrest.skip).bind
    exact fun body rest rest' hrest => Tracks.ok _ hrest
  | once =>
    apply (hblock _ _ h.skip).bind
    exact fun body rest rest' hrest => Tracks.ok _ hrest
  | perform verb =>
    apply Tracks.expectBlank h
    intro rest rest' hrest
    apply (hexpr _ _ hrest).bind
    exact fun value rest rest' hrest => Tracks.ok _ hrest
  | run => exact tracking_run hexpr hstatement hnm _ _ h
  | use => exact tracking_use hnm _ _ h
  | define => exact tracking_define hstatement hnm _ _ h

theorem tracking_oneStatement (hexpr : Tracking texts expr expr') (hsigns : RejectsSigns expr)
    (hsigns' : RejectsSigns expr') (hstatement : Tracking texts statement statement') {n m : Nat}
    (hnm : n ≤ m) :
    Tracking texts (oneStatement expr statement (n + 1))
      (oneStatement expr' statement' (m + 1)) := by
  have hnm := Nat.succ_le_succ hnm
  intro text text' h
  rw [oneStatement, oneStatement]
  rcases rel_cases (h.eat? (c := '#') (by decide)) with
    ⟨hnone, hnone'⟩ | ⟨rest, rest', hsome, hsome', hrest⟩
  · rw [hnone, hnone']
    dsimp only
    rcases keyword?_twins h with hkeyword | ⟨keyword, rest, hsome, hsign⟩ |
      ⟨hhides, keyword, rest', hsome', hsign, hskip⟩
    · rcases rel_cases hkeyword with
        ⟨hnone, hnone'⟩ | ⟨⟨keyword, rest⟩, ⟨_, rest'⟩, hsome, hsome', rfl, hrest⟩
      · rw [hnone, hnone']
        exact tracking_assignment hexpr hnm _ _ h
      · rw [hsome, hsome']
        exact tracking_keyworded hexpr hstatement hnm keyword _ _ hrest
    · -- only the second version is an assignment, and the first one is not read at all
      obtain ⟨cause, hfails⟩ := keyworded_sign hsigns statement n keyword hsign
      simp only [hsome, hfails]
      trivial
    · obtain ⟨cause, hfails⟩ := keyworded_sign hsigns' statement' m keyword hsign
      simp only [hsome', hfails, hskip]
      exact Tracks.hides hhides cause
  · rw [hsome, hsome']
    apply (tracking_object hexpr hnm _ _ hrest).bind
    intro scheme rest rest' hrest
    exact tracking_schemed hexpr hstatement hnm scheme _ _ hrest.skip

end

theorem tracking_statementAt {texts : Respacing} {n m : Nat} (hnm : n ≤ m) :
    Tracking texts (statementAt n) (statementAt m) := by
  induction n generalizing m with
  | zero => exact fun _ _ _ => Tracks.fault
  | succ n ih =>
    obtain ⟨m, rfl⟩ := Nat.exists_eq_succ_of_ne_zero (Nat.ne_zero_of_lt hnm)
    have hlower := Nat.le_of_succ_le_succ hnm
    exact tracking_oneStatement (tracking_expressionAt hnm) (rejectsSigns_expressionAt n)
      (rejectsSigns_expressionAt m) (ih hlower) hlower

end Reader

end Dialogue
