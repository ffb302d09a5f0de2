import Dialogue.Proofs.Written.Lexeme
import Dialogue.Script.Expr

/-!
# How expressions are written

`Expr.write` writes an expression in one of two styles. The *full* style puts every operand in
parentheses. The *minimal* style does so only where the operators' precedence or their grouping
to the left would make the text mean something else. In both, one space stands on each side of a
binary operator, and indexings and calls directly follow what they belong to.

`Expr.Plain` says which expressions can be written at all: there is no spread in them, their names
are words other than `true` and `false`, and their numbers are values that some text is read as.
-/

namespace Dialogue

open Reader (isSymbol stringText Readable isWordStart isNumeralStart)

/-! ## Precedence -/

/-- How tightly an operator binds, the loosest operator first. -/
def Operator.level : Operator → Nat
  | .or => 0
  | .and => 1
  | .is | .isIn => 2
  | .le | .ge | .eq | .lt | .gt | .ne => 3
  | .concat | .add | .sub | .mod => 4
  | .mul | .div => 5

/-- How tightly an expression holds together: by its operator, as a negation, or as a unit. -/
def Expr.level : Expr → Nat
  | .binary op _ _ => op.level
  | .not _ => 6
  | _ => 7

/-- Which operands are written in parentheses. -/
inductive Style where
  | full
  | minimal
  deriving DecidableEq, Repr

/-- Whether an operand of some level is written in parentheses where at least another level is
needed. -/
def Style.wraps : Style → Nat → Nat → Bool
  | .full, _, _ => true
  | .minimal, level, least => level < least

theorem Operator.level_lt (op : Operator) : op.level < 6 := by cases op <;> decide

theorem Expr.level_le (e : Expr) : e.level ≤ 7 := by
  cases e with
  | binary op _ _ => exact Nat.le_trans (Nat.le_of_lt op.level_lt) (by decide)
  | not _ => exact Nat.le_succ 6
  | _ => exact Nat.le_refl 7

/-- An operand without parentheses has at least the level that is needed. -/
theorem Style.le_of_wraps_eq_false {style : Style} {level least : Nat}
    (h : style.wraps level least = false) : least ≤ level := by
  cases style with
  | full => cases h
  | minimal => exact Nat.le_of_not_lt (by simpa [Style.wraps] using h)

/-- A text in parentheses, if it has to be. -/
def wrapped (wrap : Bool) (text : List Char) : List Char :=
  if wrap then '(' :: (text ++ [')']) else text

/-- Texts with commas between them. -/
def joined : List (List Char) → List Char
  | [] => []
  | [text] => text
  | text :: others => text ++ ',' :: ' ' :: joined others

theorem joined_cons_cons (text next : List Char) (others : List (List Char)) :
    joined (text :: next :: others) = text ++ ',' :: ' ' :: joined (next :: others) := by
  simp [joined]

/-! ## The writer -/

/-- How a literal is written. -/
def Literal.write : Literal → List Char
  | .string s => stringText s
  | .number v => v.numeral.text
  | .boolean true => "true".toList
  | .boolean false => "false".toList

mutual

/-- How an expression is written. A spread cannot be written, and takes no room. -/
def Expr.write (style : Style) : Expr → List Char
  | .binary op left right =>
    wrapped (style.wraps left.level op.level) (left.write style) ++ ' ' :: (op.text.toList ++
      ' ' :: wrapped (style.wraps right.level (op.level + 1)) (right.write style))
  | .not operand => '!' :: wrapped (style.wraps operand.level 6) (operand.write style)
  | .call callee args =>
    wrapped (style.wraps callee.level 7) (callee.write style) ++
      '(' :: (joined (Expr.writeEach style args) ++ [')'])
  | .member target property =>
    wrapped (style.wraps target.level 7) (target.write style) ++
      '[' :: (property.write style ++ [']'])
  | .name x => x.toList
  | .literal value => value.write
  | .array elements => '[' :: (joined (Expr.writeEach style elements) ++ [']'])
  | .object fields => '{' :: (joined (Expr.writeFields style fields) ++ ['}'])
  | .spread _ => []

/-- How each of a list of expressions is written. -/
def Expr.writeEach (style : Style) : List Expr → List (List Char)
  | [] => []
  | e :: es => e.write style :: Expr.writeEach style es

/-- How each field of an object is written, with its key as a string. -/
def Expr.writeFields (style : Style) : List (String × Expr) → List (List Char)
  | [] => []
  | (key, e) :: fields =>
    (stringText key ++ ':' :: ' ' :: e.write style) :: Expr.writeFields style fields

end

/-- How an expression is written as an operand of at least some level. -/
def Expr.writeAt (style : Style) (least : Nat) (e : Expr) : List Char :=
  wrapped (style.wraps e.level least) (e.write style)

/-- How a field of an object is written. -/
def Expr.writeField (style : Style) (field : String × Expr) : List Char :=
  stringText field.1 ++ ':' :: ' ' :: field.2.write style

theorem Expr.writeEach_eq_map (style : Style) (es : List Expr) :
    Expr.writeEach style es = es.map (Expr.write style) := by
  induction es with
  | nil => rfl
  | cons e es ih => rw [Expr.writeEach, ih, List.map_cons]

theorem Expr.writeFields_eq_map (style : Style) (fields : List (String × Expr)) :
    Expr.writeFields style fields = fields.map (Expr.writeField style) := by
  induction fields with
  | nil => rfl
  | cons field fields ih => rw [Expr.writeFields, ih, List.map_cons, Expr.writeField]

/-! ## What can be written -/

/-- A literal that can be written: a number has to be the value of some text. -/
def Literal.Plain : Literal → Prop
  | .number v => Readable v
  | _ => True

mutual

/-- An expression that can be written. -/
def Expr.Plain : Expr → Prop
  | .binary _ left right => left.Plain ∧ right.Plain
  | .not operand => operand.Plain
  | .call callee args => callee.Plain ∧ Expr.PlainEach args
  | .member target property => target.Plain ∧ property.Plain
  | .name x => isSymbol x = true ∧ x ≠ "true" ∧ x ≠ "false"
  | .literal value => value.Plain
  | .array elements => Expr.PlainEach elements
  | .object fields => Expr.PlainFields fields
  | .spread _ => False

/-- Expressions that can be written. -/
def Expr.PlainEach : List Expr → Prop
  | [] => True
  | e :: es => e.Plain ∧ Expr.PlainEach es

/-- Fields whose values can be written; keys may be any strings. -/
def Expr.PlainFields : List (String × Expr) → Prop
  | [] => True
  | (_, e) :: fields => e.Plain ∧ Expr.PlainFields fields

end

theorem Expr.plainEach_iff {es : List Expr} : Expr.PlainEach es ↔ ∀ e ∈ es, e.Plain := by
  induction es with
  | nil => simp [Expr.PlainEach]
  | cons e es ih => simp [Expr.PlainEach, ih]

theorem Expr.plainFields_iff {fields : List (String × Expr)} :
    Expr.PlainFields fields ↔ ∀ field ∈ fields, field.2.Plain := by
  induction fields with
  | nil => simp [Expr.PlainFields]
  | cons field fields ih => simp [Expr.PlainFields, ih]

/-! ## How written expressions start -/

/-- Whether a character can start a written expression. -/
def startsExpr (c : Char) : Bool :=
  c == '"' || c == '{' || c == '[' || c == '(' || c == '!' || isNumeralStart c || isWordStart c

theorem isSolid_of_startsExpr {c : Char} (h : startsExpr c = true) : Text.isSolid c = true := by
  simp only [startsExpr, Bool.or_eq_true, beq_iff_eq] at h
  rcases h with (((((rfl | rfl) | rfl) | rfl) | rfl) | h) | h
  · decide
  · decide
  · decide
  · decide
  · decide
  · exact Reader.isSolid_of_isNumeralStart h
  · exact Reader.isSolid_of_isWordStart h

theorem startsExpr_of_isWordStart {c : Char} (h : Reader.isWordStart c = true) :
    startsExpr c = true := by
  simp [startsExpr, h]

/-- A text that starts like a written expression. -/
def OpensExpr (text : List Char) : Prop := ∃ c cs, text = c :: cs ∧ startsExpr c = true

namespace OpensExpr

theorem wrapped {text : List Char} (h : OpensExpr text) (wrap : Bool) :
    OpensExpr (wrapped wrap text) := by
  cases wrap with
  | true => exact ⟨'(', _, rfl, by decide⟩
  | false => exact h

theorem append {text : List Char} (h : OpensExpr text) (more : List Char) :
    OpensExpr (text ++ more) := by
  obtain ⟨c, cs, rfl, hc⟩ := h
  exact ⟨c, cs ++ more, rfl, hc⟩

theorem ne_nil {text : List Char} (h : OpensExpr text) : text ≠ [] := by
  obtain ⟨c, cs, rfl, -⟩ := h
  exact List.cons_ne_nil c cs

theorem skip_eq {text : List Char} (h : OpensExpr text) : Text.skip text = text := by
  obtain ⟨c, cs, rfl, hc⟩ := h
  exact Text.skip_cons (isSolid_of_startsExpr hc) cs

end OpensExpr

theorem Literal.opensExpr_write (value : Literal) : OpensExpr value.write := by
  cases value with
  | string s => exact ⟨'"', _, rfl, by decide⟩
  | number v =>
    obtain ⟨c, cs, htext, hc⟩ := Reader.exists_text v.wellFormed_numeral
    exact ⟨c, cs, htext, by simp [startsExpr, hc]⟩
  | boolean b =>
    cases b with
    | true => exact ⟨'t', _, rfl, by decide⟩
    | false => exact ⟨'f', _, rfl, by decide⟩

/-- A written expression is not empty, and no gap stands in front of it. -/
theorem Expr.opensExpr_write (style : Style) : ∀ {e : Expr}, e.Plain → OpensExpr (e.write style)
  | .binary _ _ _, h => by
    rw [Expr.write]
    exact ((Expr.opensExpr_write style h.1).wrapped _).append _
  | .not _, _ => ⟨'!', _, by rw [Expr.write], by decide⟩
  | .call _ _, h => by
    rw [Expr.write]
    exact ((Expr.opensExpr_write style h.1).wrapped _).append _
  | .member _ _, h => by
    rw [Expr.write]
    exact ((Expr.opensExpr_write style h.1).wrapped _).append _
  | .name x, h => by
    obtain ⟨c, cs, hx, hc, -⟩ := Reader.exists_of_isSymbol h.1
    exact ⟨c, cs, by rw [Expr.write, hx], startsExpr_of_isWordStart hc⟩
  | .literal value, _ => by
    rw [Expr.write]
    exact value.opensExpr_write
  | .array _, _ => ⟨'[', _, by rw [Expr.write], by decide⟩
  | .object _, _ => ⟨'{', _, by rw [Expr.write], by decide⟩
  | .spread _, h => h.elim

theorem Expr.skip_write (style : Style) {e : Expr} (h : e.Plain) (rest : List Char) :
    Text.skip (e.write style ++ rest) = e.write style ++ rest :=
  ((Expr.opensExpr_write style h).append rest).skip_eq

end Dialogue
