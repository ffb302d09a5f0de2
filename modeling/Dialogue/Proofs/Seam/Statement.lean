import Dialogue.Proofs.Progress.Statement
import Dialogue.Proofs.Seam.Expression

/-!
# Statements up to a seam

Each form of statement reads up to a seam what it reads without it, where its last expression does
not dangle. The loops over statements and branches stop at the end of the text or at a closing
brace; at the end of the text they would go on past the seam, but a block that has not been closed
there is not read at all. So only the statements that are not inside a block can be in doubt, and a
statement that starts with a dangling word is none.
-/

namespace Dialogue

open Text (isBlank skip skipBlanks)

namespace Reader

/-! ## Rests in doubt -/

/-- Nothing is left. -/
def Ended (rest : List Char) : Prop := rest = []

/-- Nothing is left but a word operator, and the gap before it has been skipped. -/
def Halted (rest : List Char) : Prop := rest = [] ∨ rest = ['i', 's'] ∨ rest = ['i', 'n']

theorem Ended.eat? {rest : List Char} (h : Ended rest) (c : Char) : eat? c rest = none := by
  rw [h]
  rfl

theorem Halted.eat? {rest : List Char} (h : Halted rest) {c : Char} (hc : isMark c = true) :
    eat? c rest = none := by
  have hne : 'i' ≠ c := by
    rintro rfl
    cases hc
  rcases h with rfl | rfl | rfl
  · rfl
  · exact if_neg hne
  · exact if_neg hne

theorem Dangling.halted_skip {rest : List Char} (h : Dangling rest) : Halted (skip rest) := Or.inr h

theorem Blocked.ok {α : Type} {doubt : List Char → Prop} {value : α} {rest : List Char}
    (h : doubt rest) : Blocked doubt (.ok (value, rest)) := by
  rintro value rest hread
  cases hread
  exact h

theorem Blocked.fault {α : Type} {doubt : List Char → Prop} {cause : Cause} {rest : List Char} :
    Blocked (α := α) doubt (Reader.fault cause rest) := nofun

section

variable {α : Type} {s : List Char}

/-- A value with the gap after it: where the text ends with the gap, the rest is in doubt. -/
theorem Follows.okSkip (hs : Seam s) (value : α) (rest : List Char) :
    Follows s Halted (.ok (value, skip rest)) (.ok (value, skip (rest ++ s))) := by
  rcases Text.skip_seam hs rest with ⟨-, hskip⟩ | ⟨hnone, hskip⟩
  · rw [hskip]
    exact Follows.ok value (skip rest)
  · by_cases hnil : s = []
    · rw [hnil, List.append_nil]
      exact Or.inl (by rw [List.append_nil])
    · exact Or.inr ⟨hnil, Or.inl hnone⟩

/-- The end of a text, where a loop stops that may go on past the seam. -/
theorem Follows.ended {value : α} {longer : Except Fault (α × List Char)}
    (h : s = [] → longer = .ok (value, [])) : Follows s Ended (.ok (value, [])) longer := by
  by_cases hnil : s = []
  · rw [h hnil, hnil]
    exact Or.inl rfl
  · exact Or.inr ⟨hnil, rfl⟩

theorem Follows.faultSkip {doubt : List Char → Prop} (cause : Cause) (rest : List Char) :
    Follows (α := α) s doubt (Reader.fault cause (skip rest))
      (Reader.fault cause (skip (rest ++ s))) :=
  Follows.error fun hnil => by rw [hnil, List.append_nil]; rfl

end

section

variable {s : List Char} {expr expr' : Reader Expr} {statement statement' : Reader Statement}

/-! ## Blocks and branches -/

/-- A reader that reads nothing from a word operator at the end of a text. -/
def Rejects {α : Type} (reader : Reader α) : Prop :=
  ∀ rest, Dangling rest → ∀ found, reader (skip rest) ≠ .ok found

/-- No statement is read from a rest that dangles. -/
theorem statements_ne_ok (hrejects : Rejects statement) {k : Nat} {rest : List Char}
    (h : Dangling rest) (found : List Statement × List Char) :
    statements statement k rest ≠ .ok found := by
  cases k with
  | zero => exact error_ne_ok _ found
  | succ k =>
    have hfails := hrejects rest h
    rw [statements]
    rcases h with h | h
    · rw [h] at hfails ⊢
      exact bind_ne_ok hfails found
    · rw [h] at hfails ⊢
      exact bind_ne_ok hfails found

/-- A reader of statements that reads a text up to a seam as it reads the text alone, and reads
nothing from a word operator at the end of it. -/
structure Sealed (s : List Char) (statement statement' : Reader Statement) : Prop
    extends Local s Dangling statement statement' where
  rejects : Rejects statement

theorem follows_statements (hs : Seam s) (hstatement : Sealed s statement statement') {k m : Nat}
    (hkm : k ≤ m) (text : List Char) :
    Follows s Ended (statements statement k text) (statements statement' m (text ++ s)) := by
  induction k generalizing m text with
  | zero => exact Follows.exhausted
  | succ k ih =>
    obtain ⟨m, rfl⟩ := Nat.exists_eq_succ_of_ne_zero (Nat.ne_zero_of_lt hkm)
    rw [statements, statements]
    rcases Text.skip_seam hs text with ⟨hne, hskip⟩ | ⟨hnone, hskip⟩
    · obtain ⟨c, rest, htext⟩ := List.exists_cons_of_ne_nil hne
      rw [hskip, htext, List.cons_append]
      dsimp only
      split
      · exact Follows.ok _ (c :: rest)
      · refine (hstatement.follows (c :: rest)).bind ?next ?blocked
        case next =>
          intro first rest
          refine (ih (Nat.le_of_succ_le_succ hkm) rest).bind ?_ ?_
          · exact fun others rest => Follows.ok _ rest
          · exact fun others rest hrest => Blocked.ok hrest
        case blocked =>
          intro first rest hrest
          exact Blocked.of_fails (bind_ne_ok (statements_ne_ok hstatement.rejects hrest))
    · rw [hskip, hnone]
      refine Follows.ended fun hnil => ?_
      rw [hnil]
      rfl

theorem local_block (hs : Seam s) (hstatement : Sealed s statement statement') {n m : Nat}
    (hnm : n ≤ m) :
    Local s sure (block statement n) (block statement' m) := by
  refine ⟨fun text => Follows.expect hs (by decide) text fun rest => ?_, error_ne_ok _⟩
  refine (follows_statements hs hstatement hnm rest).bind ?next ?blocked
  case next => exact fun body rest => Follows.expectSkip hs (by decide) rest fun _ => Follows.ok _ _
  case blocked =>
    intro body rest hrest
    rw [hrest]
    exact Blocked.expect rfl

theorem eatDefault?_seam (hs : Seam s) (text : List Char) :
    eatDefault? (text ++ s) = (eatDefault? text).map (· ++ s) := by
  rw [eatDefault?_eq]
  refine eatUnless_seam hs (by decide) (fun rest => ?_) text
  cases rest with
  | cons c rest => rfl
  | nil =>
    cases hs with
    | nil => rfl
    | line h => rfl

theorem local_condition (hs : Seam s) (hexpr : Local s Dangling expr expr') :
    Local s Halted (condition expr) (condition expr') := by
  refine ⟨fun text => ?_, bind_ne_ok hexpr.nil⟩
  rw [condition, condition, eatDefault?_seam hs]
  cases eatDefault? text with
  | some rest =>
    simp only [Option.map_some, isSome_eat?_skip_seam hs (show isMark '{' = true by decide)]
    split
    · exact Follows.okSkip hs none rest
    · exact Follows.faultSkip _ rest
  | none =>
    simp only [Option.map_none, eatWord?_seam hs, Option.isSome_map]
    split
    · exact Follows.fault _ text
    · refine (hexpr.follows text).bind ?_ ?_
      · exact fun found rest => Follows.okSkip hs (some found) rest
      · exact fun found rest hrest => Blocked.ok hrest.halted_skip

theorem local_branch (hs : Seam s) (hexpr : Local s Dangling expr expr')
    (hstatement : Sealed s statement statement')
    {n m : Nat} (hnm : n ≤ m) :
    Local s sure (branch expr statement n) (branch expr' statement' m) := by
  have hblock := local_block hs hstatement hnm
  refine (local_condition hs hexpr).bind ?next ?blocked
  case next =>
    exact fun found rest => (hblock.follows rest).bindSure fun body rest => Follows.ok _ rest
  case blocked =>
    intro found rest hrest
    exact Blocked.of_fails (bind_ne_ok (expect_ne_ok (hrest.eat? (by decide))))

theorem follows_branchList (hs : Seam s) (hexpr : Local s Dangling expr expr')
    (hstatement : Sealed s statement statement')
    {n m : Nat} (hnm : n ≤ m) {k j : Nat} (hkj : k ≤ j) (text : List Char) :
    Follows s Ended (branchList expr statement n k text)
      (branchList expr' statement' m j (text ++ s)) := by
  have hbranch := local_branch hs hexpr hstatement hnm
  induction k generalizing j text with
  | zero => exact Follows.exhausted
  | succ k ih =>
    obtain ⟨j, rfl⟩ := Nat.exists_eq_succ_of_ne_zero (Nat.ne_zero_of_lt hkj)
    rw [branchList, branchList]
    rcases Text.skip_seam hs text with ⟨hne, hskip⟩ | ⟨hnone, hskip⟩
    · obtain ⟨c, rest, htext⟩ := List.exists_cons_of_ne_nil hne
      rw [hskip, htext, List.cons_append]
      dsimp only
      split
      · exact Follows.ok _ (c :: rest)
      · refine (hbranch.follows (c :: rest)).bindSure fun first rest => ?_
        refine (ih (Nat.le_of_succ_le_succ hkj) rest).bind ?_ ?_
        · exact fun others rest => Follows.ok _ rest
        · exact fun others rest hrest => Blocked.ok hrest
    · rw [hskip, hnone]
      refine Follows.ended fun hnil => ?_
      rw [hnil]
      rfl

theorem local_branches (hs : Seam s) (hexpr : Local s Dangling expr expr')
    (hstatement : Sealed s statement statement')
    {n m : Nat} (hnm : n ≤ m) :
    Local s sure (branches expr statement n) (branches expr' statement' m) := by
  refine ⟨fun text => Follows.expect hs (by decide) text fun rest => ?_, error_ne_ok _⟩
  refine (follows_branchList hs hexpr hstatement hnm hnm rest).bind ?next ?blocked
  case next => exact fun found rest => Follows.expect hs (by decide) rest fun _ => Follows.ok _ _
  case blocked => exact fun found rest hrest => Blocked.expect (hrest.eat? '}')

/-! ## Forms with blocks -/

theorem follows_conditional (hs : Seam s) (hexpr : Local s Dangling expr expr')
    (hstatement : Sealed s statement statement')
    {n m : Nat} (hnm : n ≤ m) {k j : Nat} (hkj : k ≤ j) (text : List Char) :
    Follows s sure (conditional expr statement n k text)
      (conditional expr' statement' m j (text ++ s)) := by
  have hblock := local_block hs hstatement hnm
  induction k generalizing j text with
  | zero => exact Follows.exhausted
  | succ k ih =>
    obtain ⟨j, rfl⟩ := Nat.exists_eq_succ_of_ne_zero (Nat.ne_zero_of_lt hkj)
    rw [conditional, conditional]
    refine Follows.expectBlank hs "if" text (hexpr.bind ?next ?blocked)
    case next =>
      intro found rest
      refine (hblock.skip hs rest).bindSure fun body rest => ?_
      dsimp only
      rw [eatElse?_skip_seam hs]
      cases eatWord? "else" (skip rest) with
      | none => exact Follows.ok _ rest
      | some after =>
        dsimp only [Option.map_some]
        rcases Text.skip_seam hs after with ⟨-, hskip⟩ | ⟨hnone, hskip⟩
        · rw [hskip, isSome_eat?_seam hs (by decide), eatWord?_seam hs]
          split
          · exact (hblock.follows (skip after)).bindSure fun last rest => Follows.ok _ rest
          · cases eatWord? "if" (skip after) with
            | none => exact Follows.fault _ (skip after)
            | some rest =>
              exact (ih (Nat.le_of_succ_le_succ hkj) rest).bindSure
                fun others rest => Follows.ok _ rest
        · rw [hskip, hnone]
          refine Follows.error fun hnil => ?_
          rw [hnil]
          rfl
    case blocked =>
      intro found rest hrest
      exact Blocked.of_fails (bind_ne_ok (expect_ne_ok (hrest.eat?_skip (by decide))))

theorem local_schemed (hs : Seam s) (hexpr : Local s Dangling expr expr')
    (hstatement : Sealed s statement statement')
    {n m : Nat} (hnm : n ≤ m) (scheme : List (String × Expr)) :
    Local s sure (schemed expr statement n scheme) (schemed expr' statement' m scheme) := by
  refine ⟨fun text => ?_, error_ne_ok _⟩
  rw [schemed, schemed, eatWord?_seam hs, eatWord?_seam hs]
  cases eatWord? "if" text with
  | some rest =>
    exact (follows_conditional hs hexpr hstatement hnm hnm rest).bindSure
      fun found rest => Follows.ok _ rest
  | none =>
    cases eatWord? "fork" text with
    | none => exact Follows.fault _ text
    | some rest =>
      exact ((local_branches hs hexpr hstatement hnm).skip hs rest).bindSure
        fun found rest => Follows.ok _ rest

theorem follows_input (hs : Seam s) (hexpr : Local s Dangling expr expr')
    (hstatement : Sealed s statement statement')
    {n m : Nat} (hnm : n ≤ m) (text : List Char) :
    Follows s sure (input expr statement n text) (input expr' statement' m (text ++ s)) := by
  rw [input, input]
  dsimp only
  rw [eatArrow?_skip_seam hs]
  cases eatText? ['-', '>'] (skip text) with
  | none => exact Follows.faultSkip _ text
  | some rest =>
    refine ((local_identifier hs).skip hs rest).bindSure fun result rest => ?_
    exact ((local_branches hs hexpr hstatement hnm).skip hs rest).bindSure
      fun found rest => Follows.ok _ rest

/-! ## Other programs and modules -/

theorem follows_runArguments (hs : Seam s) (hexpr : Local s Dangling expr expr') {n m : Nat}
    (hnm : n ≤ m) (name : Expr) (text : List Char) :
    Follows s sure (runArguments expr n name text) (runArguments expr' m name (text ++ s)) := by
  rw [runArguments, runArguments, eat?_skip_seam hs (by decide)]
  cases eat? '(' (skip text) with
  | none => exact Follows.ok _ text
  | some rest =>
    exact (follows_enclosed hs (by decide) hexpr unclosed_dangling hnm rest).bindSure
      fun args rest => Follows.ok _ rest

theorem follows_run (hs : Seam s) (hexpr : Local s Dangling expr expr')
    (hstatement : Sealed s statement statement')
    {n m : Nat} (hnm : n ≤ m) (text : List Char) :
    Follows s Dangling (run expr statement n text) (run expr' statement' m (text ++ s)) := by
  rw [run, run]
  refine (hexpr.skip hs text).bind ?next ?blocked
  case next =>
    intro name rest
    refine (follows_runArguments hs hexpr hnm name rest).bindSure ?_
    rintro ⟨name, args⟩ rest
    dsimp only
    rw [eatArrow?_skip_seam hs]
    cases eatText? ['-', '>'] (skip rest) with
    | none => exact Follows.ok _ rest
    | some after =>
      refine ((local_identifier hs).skip hs after).bindSure fun result rest => ?_
      dsimp only
      rw [isSome_eat?_skip_seam hs (by decide)]
      split
      · exact ((local_branches hs hexpr hstatement hnm).skip hs rest).bindSure
          fun found rest => Follows.ok _ rest
      · exact Follows.ok _ rest
  case blocked =>
    intro name rest hrest
    have harrow : eatText? ['-', '>'] (skip rest) = none := by
      rcases hrest with h | h
      · rw [h]
        rfl
      · rw [h]
        rfl
    dsimp only
    rw [runArguments, hrest.eat?_skip (by decide)]
    dsimp only [ok_bind]
    rw [harrow]
    exact Blocked.ok hrest

theorem follows_imports (hs : Seam s) {k m : Nat} (hkm : k ≤ m) (text : List Char) :
    Follows s sure (imports k text) (imports m (text ++ s)) := by
  induction k generalizing m text with
  | zero => exact Follows.exhausted
  | succ k ih =>
    obtain ⟨m, rfl⟩ := Nat.exists_eq_succ_of_ne_zero (Nat.ne_zero_of_lt hkm)
    rw [imports, imports]
    refine ((local_identifier hs).skip hs text).bindSure fun first rest => ?_
    dsimp only
    rw [eat?_skip_seam hs (by decide)]
    cases eat? ',' (skip rest) with
    | none => exact Follows.ok _ rest
    | some after =>
      exact (ih (Nat.le_of_succ_le_succ hkm) after).bindSure fun others rest => Follows.ok _ rest

theorem follows_use (hs : Seam s) {n m : Nat} (hnm : n ≤ m) (text : List Char) :
    Follows s sure (use n text) (use m (text ++ s)) := by
  rw [use, use]
  refine Follows.expectBlank hs "use" text ⟨fun text => ?_, error_ne_ok _⟩
  rw [isSome_eat?_seam hs (by decide)]
  split
  · refine ((local_string hs).follows text).bindSure fun source rest => ?_
    refine Follows.expectBlank hs "module name" rest ⟨fun text => ?_, error_ne_ok _⟩
    refine Follows.expectWord hs "import" text fun rest => ?_
    exact (follows_imports hs hnm rest).bindSure fun names rest => Follows.ok _ rest
  · exact Follows.fault _ text

theorem follows_define (hs : Seam s) (hstatement : Sealed s statement statement') {n m : Nat}
    (hnm : n ≤ m) (text : List Char) :
    Follows s sure (define statement n text) (define statement' m (text ++ s)) := by
  have hidentifier := local_identifier hs
  rw [define, define]
  refine Follows.expectBlank hs "def" text ((hidentifier.bind ?_ fun _ _ hrest => hrest.elim))
  intro name rest
  refine Follows.expectSkip hs (by decide) rest fun rest => ?_
  refine (follows_enclosed hs (by decide) hidentifier unclosed_sure hnm rest).bindSure ?_
  intro params rest
  exact ((local_block hs hstatement hnm).skip hs rest).bindSure
    fun body rest => Follows.ok _ rest

/-! ## Assignments -/

theorem local_targets (hs : Seam s) (hexpr : Local s Dangling expr expr') {k m : Nat}
    (hkm : k ≤ m) : Local s Halted (targets expr k) (targets expr' m) := by
  induction k generalizing m with
  | zero => exact ⟨fun _ => Follows.exhausted, error_ne_ok _⟩
  | succ k ih =>
    obtain ⟨m, rfl⟩ := Nat.exists_eq_succ_of_ne_zero (Nat.ne_zero_of_lt hkm)
    refine ⟨fun text => ?_, bind_ne_ok hexpr.nil⟩
    rw [targets, targets]
    refine (hexpr.skip hs text).bind ?next ?blocked
    case next =>
      intro first rest
      dsimp only
      rw [eat?_skip_seam hs (by decide)]
      cases eat? ',' (skip rest) with
      | none => exact Follows.okSkip hs _ rest
      | some after =>
        refine ((ih (Nat.le_of_succ_le_succ hkm)).follows after).bind ?_ ?_
        · exact fun others rest => Follows.ok _ rest
        · exact fun others rest hrest => Blocked.ok hrest
    case blocked =>
      intro first rest hrest
      dsimp only
      rw [hrest.eat?_skip (by decide)]
      exact Blocked.ok hrest.halted_skip

theorem eatAssign?_seam (hs : Seam s) (text : List Char) :
    eatAssign? (text ++ s) = (eatAssign? text).map (· ++ s) := by
  rw [eatAssign?_eq]
  exact eatUnless_seam hs (by decide) (isSome_eat?_seam hs (by decide)) text

theorem local_assignment (hs : Seam s) (hexpr : Local s Dangling expr expr') {n m : Nat}
    (hnm : n ≤ m) : Local s Dangling (assignment expr n) (assignment expr' m) := by
  refine (local_targets hs hexpr hnm).bind ?next ?blocked
  case next =>
    intro elements rest
    dsimp only
    rw [eatAssign?_seam hs]
    cases eatAssign? rest with
    | none => exact Follows.fault _ rest
    | some after =>
      refine (hexpr.skip hs after).bind ?_ ?_
      · exact fun value rest => Follows.ok _ rest
      · exact fun value rest hrest => Blocked.ok hrest
  case blocked =>
    intro elements rest hrest
    dsimp only
    rw [eatAssign?, hrest.eat? (by decide)]
    exact Blocked.fault

/-! ## All forms -/

/-- A character that is found after blanks is found after the gap. -/
theorem eat?_skipBlanks_startsAnew {c : Char} (hc : isMark c = true)
    (hsolid : Text.isSolid c = true) {text : List Char} (h : startsAnew text = true) :
    eat? c (skipBlanks text) = none := by
  cases heat : eat? c (skipBlanks text) with
  | none => rfl
  | some rest =>
    have hfound := eat?_startsAnew hc h
    rw [← Text.skip_skipBlanks, eat?_eq_some heat, Text.skip_cons hsolid, eat?, if_pos rfl] at hfound
    cases hfound

/-- Blanks before a seam either end in the text, or go on past the seam. -/
theorem skipBlanks_append (text : List Char) :
    skipBlanks (text ++ s) = skipBlanks text ++ s ∨
      (skipBlanks text = [] ∧ skipBlanks (text ++ s) = skipBlanks s) := by
  rw [skipBlanks, List.dropWhile_append]
  split
  · rename_i hblank
    exact Or.inr ⟨List.isEmpty_iff.1 hblank, rfl⟩
  · exact Or.inl rfl

/-- Whether a keyword is assigned to does not depend on what follows a seam. -/
theorem assigns_seam (hs : Seam s) (text : List Char) : assigns (text ++ s) = assigns text := by
  rw [assigns, assigns]
  rcases skipBlanks_append text with hskip | ⟨hnone, hskip⟩
  · rw [hskip, isSome_eat?_seam hs (by decide), eatAssign?_seam hs, Option.isSome_map]
  · rw [hskip, hnone]
    cases hs with
    | nil => rfl
    | line h =>
      have hline : ∀ rest, skipBlanks ('\n' :: rest) = skipBlanks rest := fun rest => rfl
      rw [hline, eatAssign?, eat?_skipBlanks_startsAnew (by decide) (by decide) h,
        eat?_skipBlanks_startsAnew (by decide) (by decide) h]
      rfl

theorem keyword?_seam (hs : Seam s) (text : List Char) :
    keyword? (text ++ s) = (keyword? text).map fun found => (found.1, found.2 ++ s) := by
  rw [keyword?, keyword?, word?_seam hs]
  cases word? text with
  | none => rfl
  | some found =>
    obtain ⟨word, rest⟩ := found
    cases hkeyword : Keyword.ofText? word with
    | none => simp [hkeyword]
    | some keyword =>
      simp only [hkeyword, Option.map_some, Option.bind_eq_bind, Option.bind_some, assigns_seam hs]
      split
      · rfl
      · rfl

theorem follows_keyworded (hs : Seam s) (hexpr : Local s Dangling expr expr')
    (hstatement : Sealed s statement statement')
    {n m : Nat} (hnm : n ≤ m) (keyword : Keyword) (text : List Char) :
    Follows s Dangling (keyworded expr statement n keyword text)
      (keyworded expr' statement' m keyword (text ++ s)) := by
  have hblock := local_block hs hstatement hnm
  have hsure : ∀ rest, sure rest → Dangling rest := fun _ hrest => hrest.elim
  cases keyword with
  | condition =>
    exact (follows_conditional hs hexpr hstatement hnm hnm text).bindSure
      fun found rest => Follows.ok _ rest
  | fork =>
    exact ((local_branches hs hexpr hstatement hnm).skip hs text).bindSure
      fun found rest => Follows.ok _ rest
  | input => exact (follows_input hs hexpr hstatement hnm text).mono hsure
  | await =>
    rw [keyworded, keyworded]
    refine Follows.expectBlank hs "await" text (hexpr.bind ?next ?blocked)
    case next =>
      exact fun found rest => (hblock.skip hs rest).bindSure fun body rest => Follows.ok _ rest
    case blocked =>
      intro found rest hrest
      exact Blocked.of_fails (bind_ne_ok (expect_ne_ok (hrest.eat?_skip (by decide))))
  | once => exact (hblock.skip hs text).bindSure fun body rest => Follows.ok _ rest
  | perform verb =>
    rw [keyworded, keyworded]
    refine Follows.expectBlank hs verb.text text (hexpr.bind ?_ ?_)
    · exact fun value rest => Follows.ok _ rest
    · exact fun value rest hrest => Blocked.ok hrest
  | run => exact follows_run hs hexpr hstatement hnm text
  | use => exact (follows_use hs hnm text).mono hsure
  | define => exact (follows_define hs hstatement hnm text).mono hsure

theorem local_oneStatement (hs : Seam s) (hexpr : Local s Dangling expr expr')
    (hstatement : Sealed s statement statement')
    {n m : Nat} (hnm : n ≤ m) :
    Local s Dangling (oneStatement expr statement n) (oneStatement expr' statement' m) := by
  have hassignment := local_assignment hs hexpr hnm
  refine ⟨fun text => ?_, hassignment.nil⟩
  rw [oneStatement, oneStatement, eat?_seam hs (by decide), keyword?_seam hs]
  cases eat? '#' text with
  | some rest =>
    refine ((local_object hs hexpr hnm).follows rest).bindSure fun scheme rest => ?_
    exact ((local_schemed hs hexpr hstatement hnm scheme).skip hs rest).mono
      fun _ hrest => hrest.elim
  | none =>
    cases keyword? text with
    | some found => exact follows_keyworded hs hexpr hstatement hnm found.1 found.2
    | none => exact hassignment.follows text

end

/-- A word operator at the end of a text is no statement: it would be assigned to. -/
theorem rejects_statementAt (n : Nat) : Rejects (statementAt n) := by
  intro rest hrest found
  cases n with
  | zero => exact error_ne_ok _ found
  | succ n =>
    rcases hrest with h | h
    · rw [h]
      have hread : statementAt (n + 1) ['i', 's'] = fault (.expected "=") [] := rfl
      rw [hread]
      exact error_ne_ok _ found
    · rw [h]
      have hread : statementAt (n + 1) ['i', 'n'] = fault (.expected "=") [] := rfl
      rw [hread]
      exact error_ne_ok _ found

/-- Reading a statement under a larger bound, and up to a seam. -/
theorem sealed_statementAt {s : List Char} (hs : Seam s) {n m : Nat} (hnm : n ≤ m) :
    Sealed s (statementAt n) (statementAt m) := by
  induction n generalizing m with
  | zero => exact ⟨⟨fun _ => Follows.exhausted, error_ne_ok _⟩, rejects_statementAt 0⟩
  | succ n ih =>
    obtain ⟨m, rfl⟩ := Nat.exists_eq_succ_of_ne_zero (Nat.ne_zero_of_lt hnm)
    have hstatement := ih (Nat.le_of_succ_le_succ hnm)
    exact ⟨local_oneStatement hs (local_expressionAt hs hnm) hstatement hnm,
      rejects_statementAt (n + 1)⟩

end Reader

end Dialogue
