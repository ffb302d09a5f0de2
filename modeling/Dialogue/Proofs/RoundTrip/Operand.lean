import Dialogue.Proofs.RoundTrip.Enclosed

/-!
# Operands are read back

A *unit* is an expression that no operator is part of, with the indexings and calls that follow
it. Reading one is a loop that wraps what it has read so far, so the statement that carries the
induction is `Continues`: having read the text of a unit, the loop stands at that unit and still
has rounds to go. Negations are read around units.
-/

namespace Dialogue

open Text (skip isSolid)

namespace Reader

/-- Reads a unit. -/
def unit (expr : Reader Expr) (n : Nat) : Reader Expr := fun text => do
  let (target, text) ← primary expr n text
  trailers expr n n target text

theorem operand_of_eatNot? {expr : Reader Expr} {n : Nat} {text : List Char}
    (h : eatNot? text = none) (k : Nat) : operand expr n (k + 1) text = unit expr n text := by
  rw [operand, h, unit]

/-- No unit starts with a negation. -/
theorem unit_bang (expr : Reader Expr) (n : Nat) (rest : List Char) :
    unit expr n ('!' :: rest) = fault .expectedExpression ('!' :: rest) := rfl

theorem trailers_of_ends {rest : List Char}
    (h : rest.head?.any (fun c => c == '[' || c == '(') = false) (expr : Reader Expr) (n m : Nat)
    (target : Expr) : trailers expr n (m + 1) target rest = .ok (target, rest) := by
  cases rest with
  | nil => rfl
  | cons c rest =>
    simp only [List.head?_cons, Option.any_some, Bool.or_eq_false_iff, beq_eq_false_iff_ne] at h
    rw [trailers, eat?_ne h.1, eat?_ne h.2]

section

variable {style : Style} {expr : Reader Expr} {n : Nat}

/-! ## Units without trailers -/

theorem primary_wrapped (hexpr : ReadsBack style expr n) {e : Expr} (he : e.Plain)
    (hlength : (e.write style).length < n) (rest : List Char) :
    primary expr (n + 1) ('(' :: (e.write style ++ ')' :: rest)) = .ok (e, rest) :=
  parenthesized_write hexpr he hlength rest

theorem primary_quote {text rest : List Char} {s : String}
    (hread : string ('"' :: text) = .ok (s, rest)) :
    primary expr n ('"' :: text) = .ok (.literal (.string s), rest) := by
  rw [primary, if_pos rfl, hread, ok_bind]

theorem primary_string (s : String) (rest : List Char) :
    primary expr n (stringText s ++ rest) = .ok (.literal (.string s), rest) :=
  primary_quote (string_append s rest)

theorem primary_of_numeral {c : Char} {cs run rest : List Char} {v : Double}
    (hc : isNumeralStart c = true) (hread : numeral (c :: cs) = .ok ((run, v), rest)) :
    primary expr n (c :: cs) = .ok (.literal (.number v), rest) := by
  have hquote : c ≠ '"' := Text.ne_of_true_of_false hc (by decide)
  rw [primary, if_neg hquote, if_pos hc, hread, ok_bind]

theorem primary_number {v : Double} (hv : v ≠ .nan) {rest : List Char}
    (hrest : rest.head?.any isNumeralPart = false) :
    primary expr n (v.numeral.text ++ rest) = .ok (.literal (.number v), rest) := by
  have hread := numeral_append hv hrest
  obtain ⟨c, cs, htext, hc⟩ := exists_text v.wellFormed_numeral
  rw [htext, List.cons_append] at hread ⊢
  exact primary_of_numeral hc hread

theorem primary_word {x : String} (hx : isSymbol x = true) {rest : List Char}
    (hrest : rest.head?.any isWordPart = false) :
    primary expr n (x.toList ++ rest) = .ok (ofWord x, rest) := by
  have hread := word?_append hx hrest
  obtain ⟨c, cs, htext, hc, -⟩ := exists_of_isSymbol hx
  have hne (d : Char) (hd : isWordStart d = false) : c ≠ d := Text.ne_of_true_of_false hc hd
  rw [htext, List.cons_append] at hread ⊢
  rw [primary, if_neg (hne '"' (by decide)), isNumeralStart_of_isWordStart hc,
    if_neg Bool.false_ne_true, if_neg (hne '{' (by decide)), if_neg (hne '[' (by decide)),
    if_neg (hne '(' (by decide)), hread]

theorem any_isWordPart_of_any_goesOn {rest : List Char} (h : rest.head?.any goesOn = false) :
    rest.head?.any isWordPart = false := by
  cases rest with
  | nil => rfl
  | cons c rest =>
    simp only [List.head?_cons, Option.any_some, goesOn, Bool.or_eq_false_iff] at h
    exact h.1

theorem any_isNumeralPart_of_any_goesOn {rest : List Char} (h : rest.head?.any goesOn = false) :
    rest.head?.any isNumeralPart = false := by
  cases rest with
  | nil => rfl
  | cons c rest =>
    simp only [List.head?_cons, Option.any_some, goesOn, Bool.or_eq_false_iff] at h
    exact h.2

theorem primary_literal {value : Literal} (h : value.Plain) {rest : List Char}
    (hrest : rest.head?.any goesOn = false) :
    primary expr n (value.write ++ rest) = .ok (.literal value, rest) := by
  cases value with
  | string s => exact primary_string s rest
  | number v => exact primary_number h.ne_nan (any_isNumeralPart_of_any_goesOn hrest)
  | boolean b =>
    cases b with
    | true => exact primary_word (by decide) (any_isWordPart_of_any_goesOn hrest)
    | false => exact primary_word (by decide) (any_isWordPart_of_any_goesOn hrest)

theorem primary_array (hexpr : ReadsBack style expr n) {es : List Expr} (hes : Expr.PlainEach es)
    (hlength : (joined (Expr.writeEach style es)).length < n) (rest : List Char) :
    primary expr (n + 1) ('[' :: (joined (Expr.writeEach style es) ++ ']' :: rest)) =
      .ok (.array es, rest) := by
  have hread := enclosed_write hexpr (Or.inr rfl) hes hlength rest
  have hstep (text : List Char) : primary expr (n + 1) ('[' :: text) =
      enclosed ']' expr (n + 1) text >>= fun found => .ok (.array found.1, found.2) := rfl
  rw [hstep, hread, ok_bind]

theorem primary_object (hexpr : ReadsBack style expr n) {fs : List (String × Expr)}
    (hfs : Expr.PlainFields fs) (hlength : (joined (Expr.writeFields style fs)).length < n)
    (rest : List Char) :
    primary expr (n + 1) ('{' :: (joined (Expr.writeFields style fs) ++ '}' :: rest)) =
      .ok (.object fs, rest) := by
  have hread := object_write hexpr hfs hlength rest
  have hstep (text : List Char) : primary expr (n + 1) ('{' :: text) =
      object expr (n + 1) ('{' :: text) >>= fun found => .ok (.object found.1, found.2) := rfl
  rw [hstep, hread, ok_bind]

/-! ## Indexings and calls -/

/-- Having read a text as a unit, the loop over trailers stands at that unit, and has used up at
most as many rounds as the text has characters. -/
def Continues (expr : Reader Expr) (n : Nat) (text : List Char) (e : Expr) : Prop :=
  ∀ rest, rest.head?.any goesOn = false →
    ∃ m, n + 1 ≤ m + text.length ∧
      unit expr (n + 1) (text ++ rest) = trailers expr (n + 1) m e rest

theorem Continues.of_primary {text : List Char} {e : Expr}
    (h : ∀ rest, rest.head?.any goesOn = false →
      primary expr (n + 1) (text ++ rest) = .ok (e, rest)) : Continues expr n text e := by
  intro rest hrest
  refine ⟨n + 1, Nat.le_add_right _ _, ?_⟩
  rw [unit, h rest hrest, ok_bind]

theorem Continues.wrapped (hexpr : ReadsBack style expr n) {e : Expr} (he : e.Plain)
    (hlength : (wrapped true (e.write style)).length ≤ n) :
    Continues expr n (wrapped true (e.write style)) e := by
  refine Continues.of_primary fun rest _ => ?_
  simp only [Dialogue.wrapped, if_true, List.length_cons, List.length_append] at hlength ⊢
  rw [List.cons_append, List.append_assoc]
  exact primary_wrapped hexpr he (by omega) rest

/-- The base of a trailer is read back: in parentheses, or as the unit that it is. -/
theorem Continues.writeAt (hexpr : ReadsBack style expr n) {e : Expr} (he : e.Plain)
    (hlength : (e.writeAt style 7).length ≤ n)
    (h : e.level = 7 → (e.write style).length ≤ n → Continues expr n (e.write style) e) :
    Continues expr n (e.writeAt style 7) e := by
  rw [Expr.writeAt] at hlength ⊢
  cases hwraps : style.wraps e.level 7 with
  | true =>
    rw [hwraps] at hlength
    exact Continues.wrapped hexpr he hlength
  | false =>
    have hlevel : e.level = 7 := Nat.le_antisymm e.level_le (Style.le_of_wraps_eq_false hwraps)
    rw [hwraps] at hlength
    exact h hlevel hlength

theorem Continues.member (hexpr : ReadsBack style expr n) {text : List Char}
    {target property : Expr} (h : Continues expr n text target) (hproperty : property.Plain)
    (hlength : (text ++ '[' :: (property.write style ++ [']'])).length ≤ n) :
    Continues expr n (text ++ '[' :: (property.write style ++ [']']))
      (.member target property) := by
  intro rest _
  obtain ⟨m, hm, hread⟩ := h ('[' :: (property.write style ++ ']' :: rest)) rfl
  simp only [List.length_append, List.length_cons, List.length_nil] at hlength ⊢
  obtain ⟨m, rfl⟩ : ∃ k, m = k + 1 := ⟨m - 1, by omega⟩
  have hinner := hexpr property hproperty (by omega) (']' :: rest) (Ends.closing (by simp) rest)
  refine ⟨m, by omega, ?_⟩
  rw [List.append_assoc, List.cons_append, List.append_assoc, List.singleton_append, hread,
    trailers, eat?_self]
  simp only [Expr.skip_write style hproperty, hinner, ok_bind,
    Text.skip_cons (show isSolid ']' = true by decide), expect_self]

theorem Continues.call (hexpr : ReadsBack style expr n) {text : List Char} {callee : Expr}
    {args : List Expr} (h : Continues expr n text callee) (hargs : Expr.PlainEach args)
    (hlength : (text ++ '(' :: (joined (Expr.writeEach style args) ++ [')'])).length ≤ n) :
    Continues expr n (text ++ '(' :: (joined (Expr.writeEach style args) ++ [')']))
      (.call callee args) := by
  intro rest _
  obtain ⟨m, hm, hread⟩ := h ('(' :: (joined (Expr.writeEach style args) ++ ')' :: rest)) rfl
  simp only [List.length_append, List.length_cons, List.length_nil] at hlength ⊢
  obtain ⟨m, rfl⟩ : ∃ k, m = k + 1 := ⟨m - 1, by omega⟩
  have hinner := enclosed_write hexpr (Or.inl rfl) hargs (by omega) rest
  refine ⟨m, by omega, ?_⟩
  rw [List.append_assoc, List.cons_append, List.append_assoc, List.singleton_append, hread,
    trailers, eat?_ne (by decide), eat?_self]
  simp only [hinner, ok_bind]

/-- Units are read back, with rounds of the loop to spare. -/
theorem continues_write (hexpr : ReadsBack style expr n) :
    ∀ {e : Expr}, e.Plain → e.level = 7 → (e.write style).length ≤ n →
      Continues expr n (e.write style) e
  | .binary op _ _, _, hlevel, _ => by cases op <;> cases hlevel
  | .not _, _, hlevel, _ => by cases hlevel
  | .call callee args, he, _, hlength => by
    rw [Expr.write] at hlength ⊢
    have hbase : (callee.writeAt style 7).length ≤ n := by
      rw [List.length_append] at hlength
      exact Nat.le_of_add_right_le hlength
    exact (Continues.writeAt hexpr he.1 hbase (continues_write hexpr he.1)).call hexpr he.2 hlength
  | .member target property, he, _, hlength => by
    rw [Expr.write] at hlength ⊢
    have hbase : (target.writeAt style 7).length ≤ n := by
      rw [List.length_append] at hlength
      exact Nat.le_of_add_right_le hlength
    exact (Continues.writeAt hexpr he.1 hbase (continues_write hexpr he.1)).member hexpr he.2
      hlength
  | .name x, he, _, _ => by
    refine Continues.of_primary fun rest hrest => ?_
    rw [Expr.write, primary_word he.1 (any_isWordPart_of_any_goesOn hrest), ofWord, if_neg he.2.1,
      if_neg he.2.2]
  | .literal value, he, _, _ => by
    refine Continues.of_primary fun rest hrest => ?_
    rw [Expr.write]
    exact primary_literal he hrest
  | .array elements, he, _, hlength => by
    refine Continues.of_primary fun rest _ => ?_
    simp only [Expr.write, List.length_cons, List.length_append] at hlength
    rw [Expr.write, List.cons_append, List.append_assoc]
    exact primary_array hexpr he (by omega) rest
  | .object fields, he, _, hlength => by
    refine Continues.of_primary fun rest _ => ?_
    simp only [Expr.write, List.length_cons, List.length_append] at hlength
    rw [Expr.write, List.cons_append, List.append_assoc]
    exact primary_object hexpr he (by omega) rest
  | .spread _, he, _, _ => he.elim

/-! ## Negations -/

/-- A text is read as an operand, whatever follows that cannot go on with it. -/
def ReadsOperand (expr : Reader Expr) (n : Nat) (text : List Char) (e : Expr) : Prop :=
  ∀ k, text.length ≤ k → ∀ rest, Ends [] rest →
    operand expr (n + 1) k (text ++ rest) = .ok (e, rest)

theorem Continues.readsOperand {text : List Char} {e : Expr} (h : Continues expr n text e)
    (hne : text ≠ []) (hlength : text.length ≤ n) : ReadsOperand expr n text e := by
  intro k hk rest hrest
  obtain ⟨m, hm, hread⟩ := h rest hrest.lexeme
  obtain ⟨m, rfl⟩ : ∃ j, m = j + 1 := ⟨m - 1, by omega⟩
  rw [trailers_of_ends hrest.trailer] at hread
  obtain ⟨c, cs, rfl⟩ := List.exists_cons_of_ne_nil hne
  obtain ⟨k, rfl⟩ : ∃ j, k = j + 1 := ⟨k - 1, by rw [List.length_cons] at hk; omega⟩
  have hbang : c ≠ '!' := by
    rintro rfl
    rw [List.cons_append, unit_bang] at hread
    cases hread
  rw [operand_of_eatNot? (by rw [List.cons_append, eatNot?, eat?_ne hbang]), hread]

theorem ReadsOperand.wrapped (hexpr : ReadsBack style expr n) {e : Expr} (he : e.Plain)
    (hlength : (wrapped true (e.write style)).length ≤ n) :
    ReadsOperand expr n (wrapped true (e.write style)) e :=
  (Continues.wrapped hexpr he hlength).readsOperand (List.cons_ne_nil _ _) hlength

theorem eatNot?_bang {text : List Char} (h : OpensExpr text) :
    eatNot? ('!' :: text) = some text := by
  obtain ⟨c, cs, rfl, hc⟩ := h
  have hne : c ≠ '=' := Text.ne_of_true_of_false hc (by decide)
  simp only [eatNot?, eat?_self, eat?_ne hne, Option.isSome_none]
  exact if_neg Bool.false_ne_true

theorem ReadsOperand.not {text : List Char} {e : Expr} (h : ReadsOperand expr n text e)
    (hopens : OpensExpr text) : ReadsOperand expr n ('!' :: text) (.not e) := by
  intro k hk rest hrest
  obtain ⟨k, rfl⟩ : ∃ j, k = j + 1 := ⟨k - 1, by rw [List.length_cons] at hk; omega⟩
  have hread := h k (by rw [List.length_cons] at hk; omega) rest hrest
  rw [List.cons_append, operand, eatNot?_bang (hopens.append rest)]
  simp only [(hopens.append rest).skip_eq, hread, ok_bind]

/-- Negations and units are read back as operands. -/
theorem readsOperand_write (hexpr : ReadsBack style expr n) :
    ∀ {e : Expr}, e.Plain → 6 ≤ e.level → (e.write style).length ≤ n →
      ReadsOperand expr n (e.write style) e
  | .binary op _ _, _, hlevel, _ => absurd op.level_lt (Nat.not_lt_of_le hlevel)
  | .not inner, he, _, hlength => by
    have hinner : inner.Plain := he
    rw [Expr.write] at hlength ⊢
    have hopens := (Expr.opensExpr_write style hinner).wrapped (style.wraps inner.level 6)
    refine ReadsOperand.not ?_ hopens
    cases hwraps : style.wraps inner.level 6 with
    | true =>
      rw [hwraps, List.length_cons] at hlength
      exact ReadsOperand.wrapped hexpr hinner (Nat.le_of_lt hlength)
    | false =>
      rw [hwraps, List.length_cons] at hlength
      exact readsOperand_write hexpr hinner (Style.le_of_wraps_eq_false hwraps)
        (Nat.le_of_lt hlength)
  | .call _ _, he, _, hlength | .member _ _, he, _, hlength | .name _, he, _, hlength
  | .literal _, he, _, hlength | .array _, he, _, hlength | .object _, he, _, hlength =>
    (continues_write hexpr he rfl hlength).readsOperand (Expr.opensExpr_write style he).ne_nil
      hlength
  | .spread _, he, _, _ => he.elim

end

end Reader

end Dialogue
