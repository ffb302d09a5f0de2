import Dialogue.Proofs.Progress.Expression
import Dialogue.Proofs.Seam.Lexeme

/-!
# Expressions up to a seam

A reader of expressions reads up to a seam what it reads without it, with one exception: a word
operator needs a blank after it, so `is` or `in` at the very end of a text is no operator, and
becomes one if a newline follows. A rest of that kind is `Dangling`. Whatever is read next fails
there, so the exception never reaches a form that ends with a closing character.
-/

namespace Dialogue

open Text (isBlank skip)

namespace Reader

/-! ## Word operators at the end of a text -/

/-- A text that consists of a gap and a word operator. -/
def Dangling (rest : List Char) : Prop := skip rest = ['i', 's'] ∨ skip rest = ['i', 'n']

theorem Dangling.eat?_skip {rest : List Char} (h : Dangling rest) {c : Char}
    (hc : isMark c = true) : eat? c (skip rest) = none := by
  have hne : 'i' ≠ c := by
    rintro rfl
    cases hc
  rcases h with h | h
  · rw [h]
    exact if_neg hne
  · rw [h]
    exact if_neg hne

section

variable {s : List Char}

/-- A text that dangles is no operator of any level. -/
theorem Dangling.operator?_skip {rest : List Char} (h : Dangling rest) (level : List Operator) :
    operator? level (skip rest) = none := by
  have hnone : ∀ op, eatOperator? op ['i', 's'] = none ∧ eatOperator? op ['i', 'n'] = none := by
    intro op
    cases op <;> decide
  rcases h with h | h
  · rw [h, operator?, if_neg (by decide), List.findSome?_eq_none_iff]
    intro op _
    rw [(hnone op).1, Option.map_none]
  · rw [h, operator?, if_neg (by decide), List.findSome?_eq_none_iff]
    intro op _
    rw [(hnone op).2, Option.map_none]

theorem eatOperator?_seam (hs : Seam s) {op : Operator} {text : List Char}
    (h : s ≠ [] → op.isWord = true → text ≠ op.text.toList) :
    eatOperator? op (text ++ s) = (eatOperator? op text).map (· ++ s) := by
  have hnewline : '\n' ∉ op.text.toList := by cases op <;> decide
  rw [eatOperator?, eatOperator?, eatText?_seam hs hnewline]
  cases heat : eatText? op.text.toList text with
  | none => rfl
  | some rest =>
    simp only [Option.map_some]
    cases hword : op.isWord with
    | false => rfl
    | true =>
      have hhead : (rest ++ s).head? = rest.head? := by
        cases rest with
        | cons c rest => rfl
        | nil =>
          by_cases hnil : s = []
          · rw [hnil]
            rfl
          · exact absurd (by simpa using eatText?_eq_some heat) (h hnil hword)
      simp only [if_true, hhead]
      split
      · rfl
      · rfl

theorem isWordPart_of_isBlank {c : Char} (h : isBlank c = true) : isWordPart c = false := by
  rw [Bool.eq_false_iff]
  intro hc
  have hblank := Text.isBlank_bounds h
  have hpart : isWordStart c = true ∨ c.isDigit = true := by
    simp only [isWordPart, Char.isAlphanum, Bool.or_eq_true] at hc
    simp only [isWordStart, Bool.or_eq_true]
    rcases hc with (hc | hc) | hc
    · exact Or.inl (Or.inl hc)
    · exact Or.inr hc
    · exact Or.inl (Or.inr hc)
  rcases hpart with hc | hc
  · have := isWordStart_bounds hc
    omega
  · have := isDigit_bounds hc
    omega

/-- No operator starts a statement. -/
theorem eatOperator?_startsAnew (op : Operator) {text : List Char} (h : startsAnew text = true) :
    eatOperator? op (skip text) = none := by
  rw [eatOperator?]
  cases heat : eatText? op.text.toList (skip text) with
  | none => rfl
  | some rest =>
    have htext := eatText?_eq_some heat
    cases hword : op.isWord with
    | false =>
      obtain ⟨c, more, hskip, hc⟩ := head_startsAnew h
      have hmark : ∃ d cs, op.text.toList = d :: cs ∧ isMark d = true := by
        cases op with
        | is => cases hword
        | isIn => cases hword
        | _ => exact ⟨_, _, rfl, by decide⟩
      obtain ⟨d, cs, hop, hd⟩ := hmark
      rw [hop, hskip, List.cons_append] at htext
      rw [← (List.cons.inj htext).1] at hd
      rcases hc with rfl | hc
      · cases hd
      · simp [isMark, hc] at hd
    | true =>
      have hsymbol : isSymbol op.text = true ∧ op.text ∈ ["is", "in", "else"] := by
        cases op with
        | is => decide
        | isIn => decide
        | _ => cases hword
      simp only [if_true]
      split
      · rename_i hblank
        have hrest : rest.head?.any isWordPart = false := by
          cases rest with
          | nil => rfl
          | cons c rest => exact isWordPart_of_isBlank hblank
        have hfound := word?_append hsymbol.1 hrest
        rw [← htext] at hfound
        exact absurd hsymbol.2 (word_startsAnew h hfound)
      · rfl

/-- An operator past a gap is the same with what follows a seam, unless the text dangles. -/
theorem operator?_skip_seam (hs : Seam s) (level : List Operator) {text : List Char}
    (h : s ≠ [] → ¬Dangling text) :
    operator? level (skip (text ++ s)) =
      (operator? level (skip text)).map fun found => (found.1, found.2 ++ s) := by
  have heach : ∀ op, eatOperator? op (skip (text ++ s)) =
      (eatOperator? op (skip text)).map (· ++ s) := by
    intro op
    rcases Text.skip_seam hs text with ⟨-, hskip⟩ | ⟨hnone, hskip⟩
    · rw [hskip]
      refine eatOperator?_seam hs fun hne hword htext => h hne ?_
      cases op with
      | is => exact Or.inl htext
      | isIn => exact Or.inr htext
      | _ => cases hword
    · have hnil : eatOperator? op [] = none := by cases op <;> rfl
      rw [hskip, hnone, hnil]
      cases hs with
      | nil => exact hnil
      | line hnew => exact eatOperator?_startsAnew op hnew
  rw [operator?, operator?, eatArrow?_skip_seam hs, Option.isSome_map]
  split
  · rfl
  · rw [List.map_findSome?]
    congr 1
    funext op
    rw [heach]
    simp [Function.comp_def]

end

section

variable {α : Type} {s : List Char} {doubt : List Char → Prop} {item item' : Reader α}

/-! ## Lists and objects -/

/-- A rest in doubt is not the end of an item. -/
def Unclosed (doubt : List Char → Prop) : Prop :=
  ∀ rest, doubt rest → ∀ c, isMark c = true → eat? c (skip rest) = none

theorem unclosed_dangling : Unclosed Dangling := fun _ hrest _ hc => hrest.eat?_skip hc

theorem unclosed_sure : Unclosed sure := fun _ hrest => hrest.elim

theorem follows_items (hs : Seam s) {close : Char} (hclose : isMark close = true)
    (hitem : Local s doubt item item') (hdoubt : Unclosed doubt) {k m : Nat} (hkm : k ≤ m)
    (text : List Char) :
    Follows s sure (items close item k text) (items close item' m (text ++ s)) := by
  induction k generalizing m text with
  | zero => exact Follows.exhausted
  | succ k ih =>
    obtain ⟨m, rfl⟩ := Nat.exists_eq_succ_of_ne_zero (Nat.ne_zero_of_lt hkm)
    rw [items, items]
    refine (hitem.skip hs text).bind ?next ?blocked
    case next =>
      intro first rest
      dsimp only
      rw [eat?_skip_seam hs (by decide)]
      cases eat? ',' (skip rest) with
      | none =>
        exact Follows.expectSkip hs (ne_newline_of_isMark hclose) rest fun rest => Follows.ok _ rest
      | some after =>
        exact (ih (Nat.le_of_succ_le_succ hkm) after).bindSure fun _ rest => Follows.ok _ rest
    case blocked =>
      intro first rest hrest
      dsimp only
      rw [hdoubt rest hrest ',' (by decide)]
      exact Blocked.expect (hdoubt rest hrest close hclose)

theorem follows_enclosed (hs : Seam s) {close : Char} (hclose : isMark close = true)
    (hitem : Local s doubt item item') (hdoubt : Unclosed doubt) {k m : Nat} (hkm : k ≤ m)
    (text : List Char) :
    Follows s sure (enclosed close item k text) (enclosed close item' m (text ++ s)) := by
  rw [enclosed, enclosed, eat?_skip_seam hs hclose]
  cases eat? close (skip text) with
  | some rest => exact Follows.ok _ rest
  | none =>
    have hitems : Local s sure (items close item k) (items close item' m) := by
      refine ⟨follows_items hs hclose hitem hdoubt hkm, fun found => ?_⟩
      cases k with
      | zero => exact error_ne_ok _ found
      | succ k => exact bind_ne_ok hitem.nil found
    exact hitems.skip hs text

theorem local_fieldKey {s : List Char} (hs : Seam s) : Local s sure fieldKey fieldKey := by
  have hnumeral : ∀ text, startsNumeral (text ++ s) = startsNumeral text := by
    intro text
    cases text with
    | nil =>
      cases hs with
      | nil => rfl
      | line h => rfl
    | cons c rest => rfl
  refine ⟨fun text => ?_, error_ne_ok _⟩
  rw [fieldKey, fieldKey, isSome_eat?_seam hs (by decide), hnumeral]
  split
  · exact (local_string hs).follows text
  · split
    · refine ((local_numeral hs).follows text).bindSure ?_
      rintro ⟨run, value⟩ rest
      exact Follows.ok _ rest
    · exact (local_identifier hs).follows text

end

section

variable {s : List Char} {expr expr' : Reader Expr}

theorem follows_fields (hs : Seam s) (hexpr : Local s Dangling expr expr') {k m : Nat}
    (hkm : k ≤ m) (text : List Char) :
    Follows s sure (fields expr k text) (fields expr' m (text ++ s)) := by
  induction k generalizing m text with
  | zero => exact Follows.exhausted
  | succ k ih =>
    obtain ⟨m, rfl⟩ := Nat.exists_eq_succ_of_ne_zero (Nat.ne_zero_of_lt hkm)
    rw [fields, fields, eat?_skip_seam hs (by decide)]
    cases eat? '}' (skip text) with
    | some rest => exact Follows.ok _ rest
    | none =>
      refine ((local_fieldKey hs).skip hs text).bindSure fun key rest => ?_
      refine Follows.expectSkip hs (by decide) rest fun rest => ?_
      refine (hexpr.skip hs rest).bind ?next ?blocked
      case next =>
        intro value rest
        dsimp only
        rw [eat?_skip_seam hs (by decide)]
        cases eat? ',' (skip rest) with
        | none => exact Follows.expectSkip hs (by decide) rest fun rest => Follows.ok _ rest
        | some after =>
          exact (ih (Nat.le_of_succ_le_succ hkm) after).bindSure fun _ rest => Follows.ok _ rest
      case blocked =>
        intro value rest hrest
        dsimp only
        rw [hrest.eat?_skip (by decide)]
        exact Blocked.expect (hrest.eat?_skip (by decide))

theorem local_object (hs : Seam s) (hexpr : Local s Dangling expr expr') {k m : Nat}
    (hkm : k ≤ m) : Local s sure (object expr k) (object expr' m) :=
  ⟨fun text => Follows.expect hs (by decide) text (follows_fields hs hexpr hkm), error_ne_ok _⟩

/-! ## Operands -/

theorem follows_parenthesized (hs : Seam s) (hexpr : Local s Dangling expr expr')
    (text : List Char) :
    Follows s sure (parenthesized expr text) (parenthesized expr' (text ++ s)) := by
  rw [parenthesized, parenthesized]
  refine (hexpr.skip hs text).bind ?next ?blocked
  case next =>
    intro inner rest
    exact Follows.expectSkip hs (by decide) rest fun rest => Follows.ok _ rest
  case blocked =>
    intro inner rest hrest
    exact Blocked.expect (hrest.eat?_skip (by decide))

theorem local_primary (hs : Seam s) (hexpr : Local s Dangling expr expr') {n m : Nat}
    (hnm : n ≤ m) : Local s sure (primary expr n) (primary expr' m) := by
  refine ⟨fun text => ?_, error_ne_ok _⟩
  cases text with
  | nil =>
    refine Follows.error fun hnil => ?_
    rw [hnil]
    rfl
  | cons c rest =>
    have hstring := (local_string hs).follows (c :: rest)
    have hnumeral := (local_numeral hs).follows (c :: rest)
    have hobject := (local_object hs hexpr hnm).follows (c :: rest)
    have hword := word?_seam hs (c :: rest)
    rw [List.cons_append] at hstring hnumeral hobject hword ⊢
    rw [primary, primary]
    split
    · exact hstring.bindSure fun _ rest => Follows.ok _ rest
    split
    · refine hnumeral.bindSure ?_
      rintro ⟨run, value⟩ rest
      exact Follows.ok _ rest
    split
    · exact hobject.bindSure fun _ rest => Follows.ok _ rest
    split
    · exact (follows_enclosed hs (by decide) hexpr unclosed_dangling hnm rest).bindSure
        fun _ rest => Follows.ok _ rest
    split
    · exact follows_parenthesized hs hexpr rest
    · rw [hword]
      cases word? (c :: rest) with
      | none => exact Follows.fault _ (c :: rest)
      | some found => exact Follows.ok _ found.2

/-- Indexings and calls follow an expression directly, so no gap is skipped before they are looked
for. -/
theorem follows_trailers (hs : Seam s) (hexpr : Local s Dangling expr expr') {n m : Nat}
    (hnm : n ≤ m) {k j : Nat} (hkj : k ≤ j) (target : Expr) (text : List Char) :
    Follows s sure (trailers expr n k target text) (trailers expr' m j target (text ++ s)) := by
  induction k generalizing j target text with
  | zero => exact Follows.exhausted
  | succ k ih =>
    obtain ⟨j, rfl⟩ := Nat.exists_eq_succ_of_ne_zero (Nat.ne_zero_of_lt hkj)
    have hnext := fun target text => ih (Nat.le_of_succ_le_succ hkj) target text
    rw [trailers, trailers, eat?_seam hs (by decide), eat?_seam hs (by decide)]
    cases eat? '[' text with
    | some rest =>
      refine (hexpr.skip hs rest).bind ?next ?blocked
      case next =>
        intro property rest
        exact Follows.expectSkip hs (by decide) rest (hnext _)
      case blocked =>
        intro property rest hrest
        exact Blocked.expect (hrest.eat?_skip (by decide))
    | none =>
      cases eat? '(' text with
      | none => exact Follows.ok target text
      | some rest =>
        exact (follows_enclosed hs (by decide) hexpr unclosed_dangling hnm rest).bindSure
          fun args rest => hnext _ rest

theorem eatNot?_seam (hs : Seam s) (text : List Char) :
    eatNot? (text ++ s) = (eatNot? text).map (· ++ s) := by
  rw [eatNot?_eq]
  exact eatUnless_seam hs (by decide) (isSome_eat?_seam hs (by decide)) text

theorem local_operand (hs : Seam s) (hexpr : Local s Dangling expr expr') {n m : Nat}
    (hnm : n ≤ m) {k j : Nat} (hkj : k ≤ j) :
    Local s sure (operand expr n k) (operand expr' m j) := by
  have hprimary := local_primary hs hexpr hnm
  induction k generalizing j with
  | zero => exact ⟨fun _ => Follows.exhausted, error_ne_ok _⟩
  | succ k ih =>
    obtain ⟨j, rfl⟩ := Nat.exists_eq_succ_of_ne_zero (Nat.ne_zero_of_lt hkj)
    refine ⟨fun text => ?_, bind_ne_ok hprimary.nil⟩
    rw [operand, operand, eatNot?_seam hs]
    cases eatNot? text with
    | some rest =>
      exact ((ih (Nat.le_of_succ_le_succ hkj)).skip hs rest).bindSure
        fun _ rest => Follows.ok _ rest
    | none => exact (hprimary.follows text).bindSure (follows_trailers hs hexpr hnm hnm)

/-! ## Operators -/

/-- No operator is read from a rest that dangles. -/
theorem blocked_operations {level : List Operator} {tighter : Reader Expr} {k : Nat} {left : Expr}
    {text : List Char} (h : Dangling text) :
    Blocked Dangling (operations level tighter k left text) := by
  intro value rest hread
  cases k with
  | zero => cases hread
  | succ k =>
    rw [operations, h.operator?_skip] at hread
    cases hread
    exact h

/-- The loop over the operators of a level is where a rest comes to dangle. -/
theorem follows_operations (hs : Seam s) {level : List Operator} {tighter tighter' : Reader Expr}
    (htighter : Local s Dangling tighter tighter') {k j : Nat} (hkj : k ≤ j) (left : Expr)
    (text : List Char) :
    Follows s Dangling (operations level tighter k left text)
      (operations level tighter' j left (text ++ s)) := by
  induction k generalizing j left text with
  | zero => exact Follows.exhausted
  | succ k ih =>
    obtain ⟨j, rfl⟩ := Nat.exists_eq_succ_of_ne_zero (Nat.ne_zero_of_lt hkj)
    rw [operations, operations]
    by_cases hdangling : s ≠ [] ∧ Dangling text
    · rw [hdangling.2.operator?_skip]
      exact Or.inr hdangling
    · rw [operator?_skip_seam hs level (not_and.1 hdangling)]
      cases operator? level (skip text) with
      | none => exact Follows.ok left text
      | some found =>
        obtain ⟨op, rest⟩ := found
        refine (htighter.skip hs rest).bind ?next ?blocked
        case next => exact fun right rest => ih (Nat.le_of_succ_le_succ hkj) _ rest
        case blocked => exact fun right rest hrest => blocked_operations hrest

theorem local_binary (hs : Seam s) {tightest tightest' : Reader Expr}
    (htightest : Local s Dangling tightest tightest') {n m : Nat} (hnm : n ≤ m)
    (levels : List (List Operator)) :
    Local s Dangling (binary tightest n levels) (binary tightest' m levels) := by
  induction levels with
  | nil => exact htightest
  | cons level levels ih =>
    refine ih.bind ?next ?blocked
    case next => exact fun left rest => follows_operations hs ih hnm left rest
    case blocked => exact fun left rest hrest => blocked_operations hrest

/-- Reading an expression under a larger bound, and up to a seam. -/
theorem local_expressionAt (hs : Seam s) {n m : Nat} (hnm : n ≤ m) :
    Local s Dangling (expressionAt n) (expressionAt m) := by
  induction n generalizing m with
  | zero => exact ⟨fun _ => Follows.exhausted, error_ne_ok _⟩
  | succ n ih =>
    obtain ⟨m, rfl⟩ := Nat.exists_eq_succ_of_ne_zero (Nat.ne_zero_of_lt hnm)
    have hoperand := local_operand hs (ih (Nat.le_of_succ_le_succ hnm)) hnm hnm
    exact local_binary hs (hoperand.mono fun _ hrest => hrest.elim) hnm Operator.levels

end

end Reader

end Dialogue
