import Dialogue.Proofs.Gap.Lexeme

/-!
# Expressions and gaps

Each reader of a form of expression reads the two versions of a text alike, if the readers for the
expressions inside do. The reader of the first version has the smaller bound. Where a form looks
past a gap, it looks past both versions of it; a word operator needs a blank, and both versions have
one; indexings and calls have to follow directly, and follow in neither version past the gap.
-/

namespace Dialogue

open Text (isBlank skip skipComment isPlain)
open Respacing (rel_cases isSome_of_rel)

namespace Text

mutual

/-- Where a gap has ended, neither a blank nor a comment starts. -/
theorem skip_eq_cons {c : Char} {rest : List Char} : ∀ {text : List Char}, skip text = c :: rest →
    isBlank c = false ∧ ∀ more, c :: rest ≠ '/' :: '/' :: more
  | [], h => by cases h
  | d :: others, h => by
    rcases skip_cons_cases d others with ⟨after, heq, hskip⟩ | ⟨-, hskip⟩ | ⟨hskip, hblank, hsolid⟩
    · have hlength : after.length ≤ others.length := by
        rw [(List.cons.inj heq).2, List.length_cons]
        omega
      rw [hskip] at h
      exact skipComment_eq_cons h
    · rw [hskip] at h
      exact skip_eq_cons h
    · rw [hskip] at h
      obtain ⟨rfl, rfl⟩ := List.cons.inj h
      exact ⟨hblank, hsolid⟩
termination_by text => text.length

theorem skipComment_eq_cons {c : Char} {rest : List Char} : ∀ {text : List Char},
    skipComment text = c :: rest → isBlank c = false ∧ ∀ more, c :: rest ≠ '/' :: '/' :: more
  | [], h => by cases h
  | d :: others, h => by
    rw [skipComment] at h
    split at h
    · exact skip_eq_cons h
    · exact skipComment_eq_cons h
termination_by text => text.length

end

end Text

namespace Reader

section

variable {α : Type} {texts : Respacing} {item item' : Reader α}

/-! ## Lists and objects -/

theorem tracking_items {close : Char} (hclose : isPlain close = true)
    (hitem : Tracking texts item item') {k m : Nat} (hkm : k ≤ m) :
    Tracking texts (items close item k) (items close item' m) := by
  induction k generalizing m with
  | zero => exact fun _ _ _ => Tracks.fault
  | succ k ih =>
    obtain ⟨m, rfl⟩ := Nat.exists_eq_succ_of_ne_zero (Nat.ne_zero_of_lt hkm)
    intro text text' h
    rw [items, items]
    apply (hitem _ _ h.skip).bind
    intro first rest rest' hrest
    dsimp only
    rcases rel_cases (hrest.skip.eat? (c := ',') (by decide)) with
      ⟨hnone, hnone'⟩ | ⟨after, after', hsome, hsome', hafter⟩
    · rw [hnone, hnone']
      apply Tracks.expect hrest.skip hclose
      exact fun rest rest' hrest => Tracks.ok _ hrest
    · rw [hsome, hsome']
      apply (ih (Nat.le_of_succ_le_succ hkm) after after' hafter).bind
      exact fun others rest rest' hrest => Tracks.ok _ hrest

theorem tracking_enclosed {close : Char} (hclose : isPlain close = true)
    (hitem : Tracking texts item item') {k m : Nat} (hkm : k ≤ m) :
    Tracking texts (enclosed close item k) (enclosed close item' m) := by
  intro text text' h
  rw [enclosed, enclosed]
  rcases rel_cases (h.skip.eat? hclose) with ⟨hnone, hnone'⟩ | ⟨rest, rest', hsome, hsome', hrest⟩
  · rw [hnone, hnone']
    exact tracking_items hclose hitem hkm _ _ h.skip
  · rw [hsome, hsome']
    exact Tracks.ok _ hrest

theorem isPlain_of_isNumeralStart {c : Char} (h : isNumeralStart c = true) : isPlain c = true := by
  simp only [isNumeralStart, Bool.or_eq_true, beq_iff_eq] at h
  rcases h with (rfl | rfl) | h
  · decide
  · decide
  · exact Respacing.isPlain_of_isDigit h

theorem startsNumeral_twins {text text' : List Char} (h : texts.Twins text text') :
    startsNumeral text = startsNumeral text' := by
  have hhead : ∀ text, startsNumeral text = text.head?.any isNumeralStart := by
    intro text
    cases text with
    | nil => rfl
    | cons c rest => rfl
  rw [hhead, hhead]
  apply h.head_any
  intro c hblank
  rw [Bool.eq_false_iff]
  intro hstart
  rw [Text.isBlank_of_isPlain (isPlain_of_isNumeralStart hstart)] at hblank
  cases hblank

theorem tracking_fieldKey : Tracking texts fieldKey fieldKey := by
  intro text text' h
  rw [fieldKey, fieldKey, ← h.isSome_eat? (by decide), ← startsNumeral_twins h]
  split
  · exact tracking_string _ _ h
  split
  · apply (tracking_numeral _ _ h).bind
    rintro ⟨run, value⟩ rest rest' hrest
    exact Tracks.ok _ hrest
  · exact tracking_identifier _ _ h

end

section

variable {texts : Respacing} {expr expr' : Reader Expr}

theorem tracking_fields (hexpr : Tracking texts expr expr') {k m : Nat} (hkm : k ≤ m) :
    Tracking texts (fields expr k) (fields expr' m) := by
  induction k generalizing m with
  | zero => exact fun _ _ _ => Tracks.fault
  | succ k ih =>
    obtain ⟨m, rfl⟩ := Nat.exists_eq_succ_of_ne_zero (Nat.ne_zero_of_lt hkm)
    intro text text' h
    rw [fields, fields]
    rcases rel_cases (h.skip.eat? (c := '}') (by decide)) with
      ⟨hnone, hnone'⟩ | ⟨rest, rest', hsome, hsome', hrest⟩
    · rw [hnone, hnone']
      apply (tracking_fieldKey _ _ h.skip).bind
      intro key rest rest' hrest
      apply Tracks.expect hrest.skip (by decide)
      intro rest rest' hrest
      apply (hexpr _ _ hrest.skip).bind
      intro value rest rest' hrest
      dsimp only
      rcases rel_cases (hrest.skip.eat? (c := ',') (by decide)) with
        ⟨hnone, hnone'⟩ | ⟨after, after', hsome, hsome', hafter⟩
      · rw [hnone, hnone']
        apply Tracks.expect hrest.skip (by decide)
        exact fun rest rest' hrest => Tracks.ok _ hrest
      · rw [hsome, hsome']
        apply (ih (Nat.le_of_succ_le_succ hkm) after after' hafter).bind
        exact fun others rest rest' hrest => Tracks.ok _ hrest
    · rw [hsome, hsome']
      exact Tracks.ok _ hrest

theorem tracking_object (hexpr : Tracking texts expr expr') {k m : Nat} (hkm : k ≤ m) :
    Tracking texts (object expr k) (object expr' m) := by
  intro text text' h
  exact Tracks.expect h (by decide) (tracking_fields hexpr hkm)

/-! ## Operands -/

theorem tracking_parenthesized (hexpr : Tracking texts expr expr') :
    Tracking texts (parenthesized expr) (parenthesized expr') := by
  intro text text' h
  rw [parenthesized, parenthesized]
  apply (hexpr _ _ h.skip).bind
  intro inner rest rest' hrest
  apply Tracks.expect hrest.skip (by decide)
  exact fun rest rest' hrest => Tracks.ok _ hrest

/-- No expression starts with a blank. -/
theorem primary_blank (expr : Reader Expr) (n : Nat) {c : Char} (hc : isBlank c = true)
    (rest : List Char) : primary expr n (c :: rest) = fault .expectedExpression (c :: rest) := by
  have hplain : ∀ {d : Char}, isPlain d = true → c ≠ d := by
    rintro d hd rfl
    rw [Text.isBlank_of_isPlain hd] at hc
    cases hc
  have hnumeral : ¬ isNumeralStart c = true := fun hd => hplain (isPlain_of_isNumeralStart hd) rfl
  have hword : ¬ isWordStart c = true := fun hd => hplain (Respacing.isPlain_of_isWordStart hd) rfl
  rw [primary, if_neg (Text.ne_of_isBlank hc).1, if_neg hnumeral, if_neg (hplain (by decide)),
    if_neg (hplain (by decide)), if_neg (hplain (by decide)), word?, if_neg hword]

theorem tracking_primary (hexpr : Tracking texts expr expr') {n m : Nat} (hnm : n ≤ m) :
    Tracking texts (primary expr n) (primary expr' m) := by
  intro text text' h
  cases text with
  | nil => exact Tracks.fault
  | cons c rest =>
    by_cases hblank : isBlank c = true
    · rw [primary_blank expr n hblank]
      exact Tracks.fault
    -- the same character starts both versions
    obtain ⟨rest', rfl⟩ : ∃ rest', text' = c :: rest' := by
      rcases h.cons with rfl | ⟨front, -, -, -, rfl⟩ | ⟨-, hc, -⟩
      · exact ⟨_, rfl⟩
      · exact ⟨_, rfl⟩
      · exact absurd hc hblank
    rw [primary, primary]
    split
    · apply (tracking_string _ _ h).bind
      exact fun content rest rest' hrest => Tracks.ok _ hrest
    split
    · apply (tracking_numeral _ _ h).bind
      rintro ⟨run, value⟩ rest rest' hrest
      exact Tracks.ok _ hrest
    split
    · apply (tracking_object hexpr hnm _ _ h).bind
      exact fun found rest rest' hrest => Tracks.ok _ hrest
    split
    · rename_i hbracket
      obtain ⟨rest'', heq, hrest⟩ := h.tail_of_isPlain (by rw [hbracket]; decide)
      obtain ⟨-, rfl⟩ := List.cons.inj heq
      apply (tracking_enclosed (by decide) hexpr hnm _ _ hrest).bind
      exact fun elements rest rest' hrest => Tracks.ok _ hrest
    split
    · rename_i hparen
      obtain ⟨rest'', heq, hrest⟩ := h.tail_of_isPlain (by rw [hparen]; decide)
      obtain ⟨-, rfl⟩ := List.cons.inj heq
      exact tracking_parenthesized hexpr _ _ hrest
    · rcases rel_cases h.word? with
        ⟨hnone, -⟩ | ⟨⟨word, after⟩, ⟨word', after'⟩, hsome, hsome', rfl, hafter⟩
      · rw [hnone]
        exact Tracks.fault
      · rw [hsome, hsome']
        exact Tracks.ok _ hafter

theorem tracking_trailers (hexpr : Tracking texts expr expr') {n m : Nat} (hnm : n ≤ m) {k j : Nat}
    (hkj : k ≤ j) (target : Expr) :
    Tracking texts (trailers expr n k target) (trailers expr' m j target) := by
  induction k generalizing j target with
  | zero => exact fun _ _ _ => Tracks.fault
  | succ k ih =>
    obtain ⟨j, rfl⟩ := Nat.exists_eq_succ_of_ne_zero (Nat.ne_zero_of_lt hkj)
    intro text text' h
    rw [trailers, trailers]
    rcases rel_cases (h.eat? (c := '[') (by decide)) with
      ⟨hnone, hnone'⟩ | ⟨rest, rest', hsome, hsome', hrest⟩
    · rw [hnone, hnone']
      rcases rel_cases (h.eat? (c := '(') (by decide)) with
        ⟨hnone, hnone'⟩ | ⟨rest, rest', hsome, hsome', hrest⟩
      · rw [hnone, hnone']
        exact Tracks.ok _ h
      · rw [hsome, hsome']
        apply (tracking_enclosed (by decide) hexpr hnm _ _ hrest).bind
        exact fun args rest rest' hrest => ih (Nat.le_of_succ_le_succ hkj) _ _ _ hrest
    · rw [hsome, hsome']
      apply (hexpr _ _ hrest.skip).bind
      intro property rest rest' hrest
      apply Tracks.expect hrest.skip (by decide)
      exact fun rest rest' hrest => ih (Nat.le_of_succ_le_succ hkj) _ _ _ hrest

theorem eatNot?_twins {text text' : List Char} (h : texts.Twins text text') :
    Option.Rel texts.Twins (eatNot? text) (eatNot? text') := by
  rw [eatNot?_eq]
  exact h.eatUnless (by decide) fun rest rest' hrest => hrest.isSome_eat? (by decide)

theorem tracking_operand (hexpr : Tracking texts expr expr') {n m : Nat} (hnm : n ≤ m) {k j : Nat}
    (hkj : k ≤ j) : Tracking texts (operand expr n k) (operand expr' m j) := by
  induction k generalizing j with
  | zero => exact fun _ _ _ => Tracks.fault
  | succ k ih =>
    obtain ⟨j, rfl⟩ := Nat.exists_eq_succ_of_ne_zero (Nat.ne_zero_of_lt hkj)
    intro text text' h
    rw [operand, operand]
    rcases rel_cases (eatNot?_twins h) with
      ⟨hnone, hnone'⟩ | ⟨rest, rest', hsome, hsome', hrest⟩
    · rw [hnone, hnone']
      apply (tracking_primary hexpr hnm _ _ h).bind
      exact fun target rest rest' hrest => tracking_trailers hexpr hnm hnm _ _ _ hrest
    · rw [hsome, hsome']
      apply (ih (Nat.le_of_succ_le_succ hkj) _ _ hrest.skip).bind
      exact fun inner rest rest' hrest => Tracks.ok _ hrest

/-! ## Operators -/

/-- The text of an operator. Past a gap, a slash starts no comment. -/
theorem eatOperatorText?_twins {text text' : List Char} (h : texts.Twins text text')
    (op : Operator) :
    Option.Rel texts.Twins (eatText? op.text.toList (skip text))
      (eatText? op.text.toList (skip text')) := by
  by_cases hop : op = .div
  · subst hop
    have htwins := h.skip
    have hslash : eatText? Operator.div.text.toList = eat? '/' := by
      funext text
      cases text with
      | nil => rfl
      | cons c rest => rfl
    rw [hslash]
    cases htext : skip text with
    | nil =>
      rw [htext] at htwins
      rw [htwins.nil]
      exact .none
    | cons c rest =>
      by_cases hc : c = '/'
      · subst hc
        rw [htext] at htwins
        obtain ⟨hblank, hslash⟩ := Text.skip_eq_cons htext
        obtain ⟨rest', htext', hrest⟩ := htwins.tail hblank (by decide) hslash
        rw [htext', eat?_self, eat?_self]
        exact .some hrest
      · have hnone : eat? '/' (skip text') = none := by
          rw [← Option.not_isSome_iff_eq_none, ← htwins.isSome_eat? (by decide), htext, eat?_ne hc]
          exact Bool.false_ne_true
        rw [eat?_ne hc, hnone]
        exact .none
  · apply h.skip.eatText?
    cases op with
    | div => exact absurd rfl hop
    | _ => exact List.all_eq_true.1 (by decide)

theorem eatOperator?_twins {text text' : List Char} (h : texts.Twins text text') (op : Operator) :
    Option.Rel texts.Twins (eatOperator? op (skip text)) (eatOperator? op (skip text')) := by
  rw [eatOperator?, eatOperator?]
  rcases rel_cases (eatOperatorText?_twins h op) with
    ⟨hnone, hnone'⟩ | ⟨rest, rest', hsome, hsome', hrest⟩
  · rw [hnone, hnone']
    exact .none
  · simp only [hsome, hsome', hrest.head_blank]
    split
    · split
      · exact .some hrest
      · exact .none
    · exact .some hrest

theorem eatArrow?_twins {text text' : List Char} (h : texts.Twins text text') :
    Option.Rel texts.Twins (eatText? ['-', '>'] (skip text)) (eatText? ['-', '>'] (skip text')) :=
  h.skip.eatText? (List.all_eq_true.1 (by decide))

theorem operator?_twins {text text' : List Char} (h : texts.Twins text text')
    (level : List Operator) :
    Option.Rel texts.Alike (operator? level (skip text)) (operator? level (skip text')) := by
  rw [operator?, operator?, isSome_of_rel (eatArrow?_twins h)]
  split
  · exact .none
  induction level with
  | nil => exact .none
  | cons op level ih =>
    rw [List.findSome?_cons, List.findSome?_cons]
    rcases rel_cases (eatOperator?_twins h op) with
      ⟨hnone, hnone'⟩ | ⟨rest, rest', hsome, hsome', hrest⟩
    · rw [hnone, hnone']
      exact ih
    · rw [hsome, hsome']
      exact .some ⟨rfl, hrest⟩

theorem tracking_operations {level : List Operator} {tighter tighter' : Reader Expr}
    (htighter : Tracking texts tighter tighter') {k j : Nat} (hkj : k ≤ j) (left : Expr) :
    Tracking texts (operations level tighter k left) (operations level tighter' j left) := by
  induction k generalizing j left with
  | zero => exact fun _ _ _ => Tracks.fault
  | succ k ih =>
    obtain ⟨j, rfl⟩ := Nat.exists_eq_succ_of_ne_zero (Nat.ne_zero_of_lt hkj)
    intro text text' h
    rw [operations, operations]
    rcases rel_cases (operator?_twins h level) with
      ⟨hnone, hnone'⟩ | ⟨⟨op, rest⟩, ⟨op', rest'⟩, hsome, hsome', rfl, hrest⟩
    · rw [hnone, hnone']
      exact Tracks.ok _ h
    · simp only [hsome, hsome']
      apply (htighter _ _ hrest.skip).bind
      exact fun right rest rest' hrest => ih (Nat.le_of_succ_le_succ hkj) _ _ _ hrest

theorem tracking_binary {tightest tightest' : Reader Expr}
    (htightest : Tracking texts tightest tightest') {n m : Nat} (hnm : n ≤ m)
    (levels : List (List Operator)) :
    Tracking texts (binary tightest n levels) (binary tightest' m levels) := by
  induction levels with
  | nil => exact htightest
  | cons level levels ih =>
    intro text text' h
    rw [binary, binary]
    apply (ih _ _ h).bind
    exact fun left rest rest' hrest => tracking_operations ih hnm left _ _ hrest

end

theorem tracking_expressionAt {texts : Respacing} {n m : Nat} (hnm : n ≤ m) :
    Tracking texts (expressionAt n) (expressionAt m) := by
  induction n generalizing m with
  | zero => exact fun _ _ _ => Tracks.fault
  | succ n ih =>
    obtain ⟨m, rfl⟩ := Nat.exists_eq_succ_of_ne_zero (Nat.ne_zero_of_lt hnm)
    have hoperand := tracking_operand (ih (Nat.le_of_succ_le_succ hnm)) hnm hnm
    exact tracking_binary hoperand hnm Operator.levels

end Reader

end Dialogue
