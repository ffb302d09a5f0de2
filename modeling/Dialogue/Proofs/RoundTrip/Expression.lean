import Dialogue.Proofs.RoundTrip.Operand

/-!
# Expressions are read back

Operators of one level group to the left, so reading a chain of them is a loop as well: `Chains`
says that, having read the text of an expression, the loop of a level stands at that expression.
A text that is read at tighter levels alone is read at all levels (`Reads.cons`). Together they
give `readsBack_expressionAt`: in either style, whatever is written is read back, and a bound on
nesting and repetition suffices as soon as it exceeds the length of the text.
-/

namespace Dialogue

open Text (skip isSolid)

namespace Reader

/-! ## Operators in a text -/

/-- The operators of the level of an operator. -/
def peers (op : Operator) : List Operator := Operator.levels.getD op.level []

theorem drop_level (op : Operator) :
    Operator.levels.drop op.level = peers op :: Operator.levels.drop (op.level + 1) := by
  cases op <;> rfl

/-- A written operator is found at its own level. -/
theorem operator?_peers (op : Operator) (rest : List Char) :
    operator? (peers op) (op.text.toList ++ ' ' :: rest) = some (op, ' ' :: rest) := by
  cases op <;> rfl

/-- A written operator is not mistaken for one that binds tighter. -/
theorem operator?_tighter (op : Operator) (rest : List Char) :
    ∀ level ∈ Operator.levels.drop (op.level + 1),
      operator? level (op.text.toList ++ ' ' :: rest) = none := by
  have hlevels (levels : List (List Operator))
      (h : levels.all (fun level =>
        (operator? level (op.text.toList ++ ' ' :: rest)).isNone) = true) :
      ∀ level ∈ levels, operator? level (op.text.toList ++ ' ' :: rest) = none := by
    intro level hlevel
    exact Option.isNone_iff_eq_none.1 (List.all_eq_true.1 h level hlevel)
  cases op <;> exact hlevels _ rfl

theorem skip_operator (op : Operator) (rest : List Char) :
    skip (' ' :: (op.text.toList ++ ' ' :: rest)) = op.text.toList ++ ' ' :: rest := by
  cases op <;> rfl

theorem Ends.operator (op : Operator) (rest : List Char) :
    Ends (Operator.levels.drop (op.level + 1)) (' ' :: (op.text.toList ++ ' ' :: rest)) := by
  refine Ends.blank (Or.inl rfl) ?_
  rw [← Text.skip_space, skip_operator]
  exact operator?_tighter op rest

theorem Ends.tail {level : List Operator} {levels : List (List Operator)} {rest : List Char}
    (h : Ends (level :: levels) rest) : Ends levels rest :=
  h.mono fun _ => List.mem_cons_of_mem level

theorem operations_of_ends {level : List Operator} {levels : List (List Operator)}
    {rest : List Char} (h : Ends (level :: levels) rest) (tighter : Reader Expr) (m : Nat)
    (left : Expr) : operations level tighter (m + 1) left rest = .ok (left, rest) := by
  rw [operations, h.operators level List.mem_cons_self]

/-! ## Reading at some levels -/

section

variable {style : Style} {expr : Reader Expr} {n : Nat} {levels : List (List Operator)}
  {level : List Operator} {text : List Char} {e : Expr}

/-- Reads an expression with operators of the given levels. -/
def operated (expr : Reader Expr) (n : Nat) (levels : List (List Operator)) : Reader Expr :=
  binary (operand expr (n + 1) (n + 1)) (n + 1) levels

/-- A text is read as an expression with operators of the given levels, whatever follows that
cannot go on with it. -/
def Reads (expr : Reader Expr) (n : Nat) (levels : List (List Operator)) (text : List Char)
    (e : Expr) : Prop :=
  ∀ rest, Ends levels rest → operated expr n levels (text ++ rest) = .ok (e, rest)

/-- Having read a text, the loop of a level stands at an expression, and has used up at most as
many rounds as the text has characters. -/
def Chains (expr : Reader Expr) (n : Nat) (level : List Operator) (levels : List (List Operator))
    (text : List Char) (e : Expr) : Prop :=
  ∀ rest, Ends levels rest →
    ∃ m, n + 1 ≤ m + text.length ∧
      operated expr n (level :: levels) (text ++ rest) =
        operations level (operated expr n levels) m e rest

theorem Reads.chains (h : Reads expr n levels text e) : Chains expr n level levels text e := by
  intro rest hrest
  refine ⟨n + 1, Nat.le_add_right _ _, ?_⟩
  have hread := h rest hrest
  rw [operated] at hread
  rw [operated, binary, hread, ok_bind]
  rfl

theorem Chains.reads (h : Chains expr n level levels text e) (hlength : text.length ≤ n) :
    Reads expr n (level :: levels) text e := by
  intro rest hrest
  obtain ⟨m, hm, hread⟩ := h rest hrest.tail
  obtain ⟨m, rfl⟩ : ∃ j, m = j + 1 := ⟨m - 1, by omega⟩
  rw [hread, operations_of_ends hrest]

theorem Reads.cons (h : Reads expr n levels text e) (hlength : text.length ≤ n) :
    Reads expr n (level :: levels) text e :=
  h.chains.reads hlength

theorem Reads.append (looser : List (List Operator)) (h : Reads expr n levels text e)
    (hlength : text.length ≤ n) : Reads expr n (looser ++ levels) text e := by
  induction looser with
  | nil => exact h
  | cons level looser ih => exact ih.cons hlength

/-- A text that is read at tighter levels is read at looser ones too. -/
theorem Reads.drop {k l : Nat} (hkl : k ≤ l)
    (h : Reads expr n (Operator.levels.drop l) text e) (hlength : text.length ≤ n) :
    Reads expr n (Operator.levels.drop k) text e := by
  obtain ⟨looser, hdrop⟩ := List.drop_suffix_drop_left Operator.levels hkl
  rw [← hdrop]
  exact h.append looser hlength

theorem ReadsOperand.reads (h : ReadsOperand expr n text e) (hlength : text.length ≤ n) {k : Nat}
    (hk : k ≤ 6) : Reads expr n (Operator.levels.drop k) text e := by
  have hnil : Reads expr n (Operator.levels.drop 6) text e := fun rest hrest =>
    h (n + 1) (Nat.le_succ_of_le hlength) rest hrest
  exact hnil.drop hk hlength

/-- One round of the loop: an operator of the level and its right operand. -/
theorem Chains.binary {op : Operator} {left right : Expr} {leftText rightText : List Char}
    (hleft : Chains expr n (peers op) (Operator.levels.drop (op.level + 1)) leftText left)
    (hright : Reads expr n (Operator.levels.drop (op.level + 1)) rightText right)
    (hopens : OpensExpr rightText)
    (hlength : (leftText ++ ' ' :: (op.text.toList ++ ' ' :: rightText)).length ≤ n) :
    Chains expr n (peers op) (Operator.levels.drop (op.level + 1))
      (leftText ++ ' ' :: (op.text.toList ++ ' ' :: rightText)) (.binary op left right) := by
  intro rest hrest
  obtain ⟨m, hm, hread⟩ := hleft _ (Ends.operator op (rightText ++ rest))
  simp only [List.length_append, List.length_cons] at hlength ⊢
  obtain ⟨m, rfl⟩ : ∃ k, m = k + 1 := ⟨m - 1, by omega⟩
  refine ⟨m, by omega, ?_⟩
  simp only [List.append_assoc, List.cons_append]
  rw [hread, operations, skip_operator, operator?_peers]
  simp only [Text.skip_space, (hopens.append rest).skip_eq, hright rest hrest, ok_bind]

/-! ## Written expressions -/

/-- What reading the text of an expression comes to. An operation is a round in the loop of its
level, anything else is an operand. -/
def ReadsWritten (style : Style) (expr : Reader Expr) (n : Nat) : Expr → Prop
  | .binary op left right =>
    Chains expr n (peers op) (Operator.levels.drop (op.level + 1))
      ((Expr.binary op left right).write style) (.binary op left right)
  | e => ReadsOperand expr n (e.write style) e

theorem ReadsWritten.reads (h : ReadsWritten style expr n e)
    (hlength : (e.write style).length ≤ n) {k : Nat} (hk : k ≤ 6) (hlevel : k ≤ e.level) :
    Reads expr n (Operator.levels.drop k) (e.write style) e := by
  cases e with
  | binary op left right =>
    have hread := Chains.reads h hlength
    rw [← drop_level] at hread
    exact hread.drop hlevel hlength
  | _ => exact ReadsOperand.reads h hlength hk

theorem peers_congr {op op' : Operator} (h : op.level = op'.level) : peers op = peers op' := by
  rw [peers, peers, h]

theorem ReadsWritten.chains (h : ReadsWritten style expr n e)
    (hlength : (e.write style).length ≤ n) {op : Operator} (hlevel : op.level ≤ e.level) :
    Chains expr n (peers op) (Operator.levels.drop (op.level + 1)) (e.write style) e := by
  rcases Nat.lt_or_eq_of_le hlevel with hlt | heq
  · exact (h.reads hlength op.level_lt hlt).chains
  · cases e with
    | binary op' left right =>
      have hlevels : op.level = op'.level := heq
      rw [peers_congr hlevels, hlevels]
      exact h
    | _ => exact absurd op.level_lt (by simp [heq, Expr.level])

theorem reads_writeAt (hexpr : ReadsBack style expr n) (he : e.Plain)
    (h : (e.write style).length ≤ n → ReadsWritten style expr n e) {k : Nat} (hk : k ≤ 6)
    (hlength : (e.writeAt style k).length ≤ n) :
    Reads expr n (Operator.levels.drop k) (e.writeAt style k) e := by
  rw [Expr.writeAt] at hlength ⊢
  cases hwraps : style.wraps e.level k with
  | true =>
    rw [hwraps] at hlength
    exact (ReadsOperand.wrapped hexpr he hlength).reads hlength hk
  | false =>
    rw [hwraps] at hlength
    exact (h hlength).reads hlength hk (Style.le_of_wraps_eq_false hwraps)

theorem chains_writeAt (hexpr : ReadsBack style expr n) (he : e.Plain)
    (h : (e.write style).length ≤ n → ReadsWritten style expr n e) {op : Operator}
    (hlength : (e.writeAt style op.level).length ≤ n) :
    Chains expr n (peers op) (Operator.levels.drop (op.level + 1))
      (e.writeAt style op.level) e := by
  rw [Expr.writeAt] at hlength ⊢
  cases hwraps : style.wraps e.level op.level with
  | true =>
    rw [hwraps] at hlength
    exact ((ReadsOperand.wrapped hexpr he hlength).reads hlength op.level_lt).chains
  | false =>
    rw [hwraps] at hlength
    exact (h hlength).chains hlength (Style.le_of_wraps_eq_false hwraps)

theorem readsWritten_write (hexpr : ReadsBack style expr n) :
    ∀ {e : Expr}, e.Plain → (e.write style).length ≤ n → ReadsWritten style expr n e
  | .binary op left right, he, hlength => by
    rw [ReadsWritten]
    rw [Expr.write] at hlength ⊢
    have hleft : (left.writeAt style op.level).length ≤ n := by
      rw [List.length_append] at hlength
      exact Nat.le_of_add_right_le hlength
    have hright : (right.writeAt style (op.level + 1)).length ≤ n := by
      simp only [List.length_append, List.length_cons] at hlength
      rw [Expr.writeAt]
      omega
    exact Chains.binary (chains_writeAt hexpr he.1 (readsWritten_write hexpr he.1) hleft)
      (reads_writeAt hexpr he.2 (readsWritten_write hexpr he.2) op.level_lt hright)
      ((Expr.opensExpr_write style he.2).wrapped _) hlength
  | .not _, he, hlength | .call _ _, he, hlength | .member _ _, he, hlength | .name _, he, hlength
  | .literal _, he, hlength | .array _, he, hlength | .object _, he, hlength =>
    readsOperand_write hexpr he (Nat.le_of_ble_eq_true rfl) hlength
  | .spread _, he, _ => he.elim

end

/-- Whatever is written is read back, under any bound above the length of the text. -/
theorem readsBack_expressionAt (style : Style) (n : Nat) :
    ReadsBack style (expressionAt n) n := by
  induction n with
  | zero => exact fun e _ hlength => absurd hlength (Nat.not_lt_zero _)
  | succ n ih =>
    intro e he hlength rest hrest
    have hle : (e.write style).length ≤ n := Nat.le_of_lt_succ hlength
    exact (readsWritten_write ih he hle).reads hle (Nat.zero_le 6) (Nat.zero_le _) rest hrest

end Reader

end Dialogue
