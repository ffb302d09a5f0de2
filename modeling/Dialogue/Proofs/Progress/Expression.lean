import Dialogue.Proofs.Progress.Lexeme
import Dialogue.Proofs.Written.Expression
import Dialogue.Reader.Expression

/-!
# What expressions take from a text

Every reader of a form of expression takes at least one character, and what it makes is an
expression that can be written (`Expr.Plain`). The reader for the expressions inside is assumed to
do so on shorter texts (`TakesBelow`); since each form reads a character of its own before it
turns to them, `takesBelow_expressionAt` follows by induction on the bound.
-/

namespace Dialogue

open Text (skip)

namespace Reader

/-- A reader that takes something from every text that is shorter than a bound, and makes values
of some kind. -/
def TakesBelow {α : Type} (n : Nat) (good : α → Prop) (reader : Reader α) : Prop :=
  ∀ text, text.length < n → Takes 1 good text (reader text)

/-! ## Lists and objects -/

section

variable {α : Type} {n k : Nat} {good : α → Prop} {item : Reader α} {text : List Char}

/-- Items are read one round at a time, and each round takes a character. -/
theorem takes_items {close : Char} (hitem : TakesBelow n good item) (hn : text.length < n)
    (hk : text.length < k) :
    Takes 1 (fun found => ∀ a ∈ found, good a) text (items close item k text) := by
  induction k generalizing text with
  | zero => omega
  | succ k ih =>
    rw [items]
    have hskip := Left.skip text
    refine Takes.bind hskip (hitem (skip text) (by have := hskip.length_le; omega)) ?_
    intro first rest hfirst hrest
    have hgap := hrest.trans (Left.skip rest)
    have hlength := hrest.length_le
    dsimp only
    split
    · rename_i after heat
      have hafter := hgap.trans (Left.of_eat? heat)
      have hless := hafter.length_le
      refine Takes.bind hafter (ih (by omega) (by omega)) ?_
      intro others rest hothers hrest
      exact Takes.ok (List.forall_mem_cons.2 ⟨hfirst, hothers⟩) hrest (by omega)
    · refine Takes.expect hgap fun after hafter => ?_
      exact Takes.ok (List.forall_mem_singleton.2 hfirst) hafter (by omega)

theorem takes_enclosed {close : Char} (hitem : TakesBelow n good item) (hn : text.length < n)
    (hk : text.length < k) :
    Takes 1 (fun found => ∀ a ∈ found, good a) text (enclosed close item k text) := by
  have hskip := Left.skip text
  have hlength := hskip.length_le
  rw [enclosed]
  split
  · rename_i rest heat
    exact Takes.ok (fun a ha => absurd ha List.not_mem_nil) (hskip.trans (Left.of_eat? heat))
      (by omega)
  · exact (takes_items hitem (by omega) (by omega)).within hskip

end

theorem takes_fieldKey (text : List Char) : Takes 1 (fun _ => True) text (fieldKey text) := by
  rw [fieldKey]
  split
  · exact takes_string text
  · split
    · refine Takes.bind (Left.refl text) (takes_numeral text) ?_
      rintro ⟨run, value⟩ rest - hrest
      exact Takes.ok trivial hrest (by omega)
    · exact (takes_identifier text).imp fun _ _ => trivial

section

variable {n : Nat} {expr : Reader Expr} {text : List Char}

theorem takes_fields (hexpr : TakesBelow n Expr.Plain expr) {k : Nat} (hn : text.length < n)
    (hk : text.length < k) : Takes 1 Expr.PlainFields text (fields expr k text) := by
  induction k generalizing text with
  | zero => omega
  | succ k ih =>
    have hskip := Left.skip text
    rw [fields]
    split
    · rename_i rest heat
      exact Takes.ok trivial (hskip.trans (Left.of_eat? heat)) (by omega)
    · refine Takes.bind hskip (takes_fieldKey (skip text)) ?_
      intro key rest _ hrest
      refine Takes.expect (hrest.trans (Left.skip rest)) fun rest hrest => ?_
      have hvalue := hrest.trans (Left.skip rest)
      have hlength := hvalue.length_le
      refine Takes.bind hvalue (hexpr (skip rest) (by omega)) ?_
      intro value rest hplain hrest
      have hgap := hrest.trans (Left.skip rest)
      dsimp only
      split
      · rename_i after heat
        have hafter := hgap.trans (Left.of_eat? heat)
        have hless := hafter.length_le
        refine Takes.bind hafter (ih (by omega) (by omega)) ?_
        intro others rest hothers hrest
        exact Takes.ok ⟨hplain, hothers⟩ hrest (by omega)
      · refine Takes.expect hgap fun after hafter => ?_
        exact Takes.ok ⟨hplain, trivial⟩ hafter (by omega)

theorem takes_object (hexpr : TakesBelow n Expr.Plain expr) {k : Nat} (hn : text.length ≤ n)
    (hk : text.length ≤ k) : Takes 1 Expr.PlainFields text (object expr k text) := by
  rw [object]
  refine Takes.expect (Left.refl text) fun rest hrest => ?_
  have hlength := hrest.length_le
  exact ((takes_fields hexpr (by omega) (by omega)).within hrest).mono (by omega)

/-! ## Operands -/

theorem plain_ofWord {x : String} (h : isSymbol x = true) : (ofWord x).Plain := by
  rw [ofWord]
  split
  · exact trivial
  · split
    · exact trivial
    · rename_i htrue hfalse
      exact ⟨h, htrue, hfalse⟩

theorem takes_parenthesized (hexpr : TakesBelow n Expr.Plain expr) (hn : text.length < n) :
    Takes 1 Expr.Plain text (parenthesized expr text) := by
  have hskip := Left.skip text
  have hlength := hskip.length_le
  rw [parenthesized]
  refine Takes.bind hskip (hexpr (skip text) (by omega)) ?_
  intro inner rest hinner hrest
  refine Takes.expect (hrest.trans (Left.skip rest)) fun rest hrest => ?_
  exact Takes.ok hinner hrest (by omega)

theorem takes_primary (hexpr : TakesBelow n Expr.Plain expr) {m : Nat} (hn : text.length ≤ n)
    (hm : text.length ≤ m) : Takes 1 Expr.Plain text (primary expr m text) := by
  cases text with
  | nil => exact Takes.fault (Left.refl []) (by simp)
  | cons c rest =>
    have hcons := Left.cons c rest
    rw [List.length_cons] at hn hm
    rw [primary]
    split
    · refine Takes.bind (Left.refl _) (takes_string _) fun content rest _ hrest => ?_
      exact Takes.ok trivial hrest (by omega)
    split
    · refine Takes.bind (Left.refl _) (takes_numeral _) ?_
      rintro ⟨run, value⟩ rest hvalue hrest
      exact Takes.ok hvalue hrest (by omega)
    split
    · refine Takes.bind (Left.refl _) (takes_object hexpr hn hm) fun found rest hfound hrest => ?_
      exact Takes.ok hfound hrest (by omega)
    split
    · refine Takes.bind hcons (takes_enclosed hexpr hn hm) fun found rest hfound hrest => ?_
      exact Takes.ok (Expr.plainEach_iff.2 hfound) hrest (by omega)
    split
    · exact ((takes_parenthesized hexpr hn).within hcons).mono (by omega)
    split
    · rename_i word rest hword
      exact Takes.ok (plain_ofWord (word?_eq_some hword).1) (Left.of_word? hword) (by omega)
    · exact Takes.fault (Left.refl _) (by simp)

/-- The loop over indexings and calls stands at an expression that can be written, and each round
takes a character. -/
theorem takes_trailers (hexpr : TakesBelow n Expr.Plain expr) {m k : Nat} (hn : text.length ≤ n)
    (hm : text.length ≤ m) (hk : text.length < k) {target : Expr} (htarget : target.Plain) :
    Takes 0 Expr.Plain text (trailers expr m k target text) := by
  induction k generalizing text target with
  | zero => omega
  | succ k ih =>
    rw [trailers]
    split
    · rename_i rest heat
      have hrest := (Left.of_eat? heat).trans (Left.skip rest)
      have hlength := hrest.length_le
      refine Takes.bind hrest (hexpr (skip rest) (by omega)) ?_
      intro property rest hproperty hrest
      refine Takes.expect (hrest.trans (Left.skip rest)) fun rest hrest => ?_
      have hless := hrest.length_le
      have hplain : (target.member property).Plain := ⟨htarget, hproperty⟩
      exact ((ih (by omega) (by omega) (by omega) hplain).within hrest).mono (by omega)
    · split
      · rename_i rest heat
        have hrest := Left.of_eat? heat
        have hlength := hrest.length_le
        refine Takes.bind hrest (takes_enclosed hexpr (by omega) (by omega)) ?_
        intro args rest hargs hrest
        have hless := hrest.length_le
        have hplain : (target.call args).Plain := ⟨htarget, Expr.plainEach_iff.2 hargs⟩
        exact ((ih (by omega) (by omega) (by omega) hplain).within hrest).mono (by omega)
      · exact Takes.ok htarget (Left.refl text) (by omega)

theorem eatNot?_eq : eatNot? = eatUnless '!' fun rest => (eat? '=' rest).isSome := rfl

theorem takes_operand (hexpr : TakesBelow n Expr.Plain expr) {m k : Nat} (hn : text.length ≤ n)
    (hm : text.length ≤ m) (hk : text.length < k) :
    Takes 1 Expr.Plain text (operand expr m k text) := by
  induction k generalizing text with
  | zero => omega
  | succ k ih =>
    rw [operand]
    split
    · rename_i rest heat
      have hrest := (Left.of_eatUnless (eatNot?_eq ▸ heat)).trans (Left.skip rest)
      have hlength := hrest.length_le
      refine Takes.bind hrest (ih (by omega) (by omega) (by omega)) ?_
      intro inner rest hinner hrest
      exact Takes.ok hinner hrest (by omega)
    · refine Takes.bind (Left.refl text) (takes_primary hexpr hn hm) ?_
      intro target rest htarget hrest
      have hlength := hrest.length_le
      exact ((takes_trailers hexpr (by omega) (by omega) (by omega) htarget).within hrest).mono
        (by omega)

/-! ## Operators -/

theorem eatText?_of_eatOperator? {op : Operator} {rest : List Char}
    (h : eatOperator? op text = some rest) : eatText? op.text.toList text = some rest := by
  rw [eatOperator?] at h
  split at h
  · cases h
  · rename_i more heat
    split at h
    · split at h
      · rw [heat, h]
      · cases h
    · rw [heat, h]

theorem eatText?_of_operator? {level : List Operator} {op : Operator} {rest : List Char}
    (h : operator? level text = some (op, rest)) : eatText? op.text.toList text = some rest := by
  rw [operator?] at h
  split at h
  · cases h
  · obtain ⟨found, -, hfound⟩ := List.exists_of_findSome?_eq_some h
    obtain ⟨more, heat, heq⟩ := Option.map_eq_some_iff.1 hfound
    obtain ⟨rfl, rfl⟩ := Prod.mk.inj heq
    exact eatText?_of_eatOperator? heat

theorem Left.of_operator? {level : List Operator} {op : Operator} {rest : List Char}
    (h : operator? level text = some (op, rest)) : Left 1 text rest := by
  have hop : op.text.toList ≠ [] := by cases op <;> decide
  exact Left.of_append (eatText?_eq_some (eatText?_of_operator? h)) hop

/-- The loop over the operators of a level stands at an expression that can be written, and each
round takes a character. -/
theorem takes_operations {level : List Operator} {tighter : Reader Expr}
    (htighter : TakesBelow n Expr.Plain tighter) {k : Nat} (hn : text.length < n)
    (hk : text.length < k) {left : Expr} (hleft : left.Plain) :
    Takes 0 Expr.Plain text (operations level tighter k left text) := by
  induction k generalizing text left with
  | zero => omega
  | succ k ih =>
    rw [operations]
    split
    · exact Takes.ok hleft (Left.refl text) (by omega)
    · rename_i op rest hop
      have hrest := ((Left.skip text).trans (Left.of_operator? hop)).trans (Left.skip rest)
      have hlength := hrest.length_le
      refine Takes.bind hrest (htighter (skip rest) (by omega)) ?_
      intro right rest hright hrest
      have hless := hrest.length_le
      have hplain : (Expr.binary op left right).Plain := ⟨hleft, hright⟩
      exact ((ih (by omega) (by omega) hplain).within hrest).mono (by omega)

theorem takesBelow_binary {tightest : Reader Expr} (htightest : TakesBelow n Expr.Plain tightest)
    {m : Nat} (hm : n ≤ m) (levels : List (List Operator)) :
    TakesBelow n Expr.Plain (binary tightest m levels) := by
  induction levels with
  | nil => exact htightest
  | cons level levels ih =>
    intro text hn
    rw [binary]
    refine Takes.bind (Left.refl text) (ih text hn) ?_
    intro left rest hleft hrest
    have hlength := hrest.length_le
    exact ((takes_operations ih (by omega) (by omega) hleft).within hrest).mono (by omega)

/-- Operands and the operators between them take something, on texts that are no longer than those
for which the expressions inside do. -/
theorem takesBelow_operand (hexpr : TakesBelow n Expr.Plain expr) :
    TakesBelow (n + 1) Expr.Plain (operand expr (n + 1) (n + 1)) := fun _ hn =>
  takes_operand hexpr (by omega) (by omega) hn

end

/-- Reading an expression never stops at a bound above the length of the text. -/
theorem takesBelow_expressionAt (n : Nat) : TakesBelow n Expr.Plain (expressionAt n) := by
  induction n with
  | zero => exact fun text hn => absurd hn (Nat.not_lt_zero _)
  | succ n ih =>
    intro text hn
    exact takesBelow_binary (takesBelow_operand ih) (Nat.le_refl _) Operator.levels text hn

end Reader

end Dialogue
