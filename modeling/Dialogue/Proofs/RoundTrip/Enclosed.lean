import Dialogue.Proofs.Written.Expression
import Dialogue.Reader.Expression

/-!
# Lists and objects are read back

The readers of parentheses, lists and objects give back what was written. Each takes the reader
for the expressions inside as a parameter, so the one fact assumed of that reader is `ReadsBack`:
it gives back every written expression that is shorter than some bound, provided that what
follows cannot go on with it (`Ends`).
-/

namespace Dialogue

open Text (skip isSolid isBlank)

namespace Reader

/-! ## What may follow an expression -/

/-- Whether a character can go on a word or a numeral. -/
def goesOn (c : Char) : Bool := isWordPart c || isNumeralPart c

/-- A text that cannot go on with an expression whose operators are of the given levels. -/
structure Ends (levels : List (List Operator)) (rest : List Char) : Prop where
  lexeme : rest.head?.any goesOn = false
  trailer : rest.head?.any (fun c => c == '[' || c == '(') = false
  operators : ∀ level ∈ levels, operator? level (skip rest) = none

/-- Whether an operator starts with a character. -/
def startsOperator (c : Char) : Bool :=
  c ∈ ['|', '&', 'i', '<', '>', '=', '!', '+', '-', '%', '*', '/']

theorem exists_operator_text (op : Operator) :
    ∃ c cs, op.text.toList = c :: cs ∧ startsOperator c = true := by
  cases op <;> exact ⟨_, _, rfl, by decide⟩

theorem eatOperator?_cons {c : Char} (h : startsOperator c = false) (op : Operator)
    (rest : List Char) : eatOperator? op (c :: rest) = none := by
  obtain ⟨d, ds, htext, hd⟩ := exists_operator_text op
  have hne : c ≠ d := (Text.ne_of_true_of_false hd h).symm
  rw [eatOperator?, htext, eatText?, if_neg hne]

theorem operator?_eq_none {text : List Char} (h : ∀ op, eatOperator? op text = none)
    (level : List Operator) : operator? level text = none := by
  rw [operator?]
  split
  · rfl
  · rw [List.findSome?_eq_none_iff]
    intro op _
    rw [h op, Option.map_none]

theorem operator?_cons {c : Char} (h : startsOperator c = false) (level : List Operator)
    (rest : List Char) : operator? level (c :: rest) = none :=
  operator?_eq_none (fun op => eatOperator?_cons h op rest) level

namespace Ends

variable {levels : List (List Operator)} {rest : List Char}

theorem mono {fewer : List (List Operator)} (h : Ends levels rest)
    (hsub : ∀ level ∈ fewer, level ∈ levels) : Ends fewer rest :=
  ⟨h.lexeme, h.trailer, fun level hlevel => h.operators level (hsub level hlevel)⟩

theorem nil (levels : List (List Operator)) : Ends levels [] := by
  refine ⟨rfl, rfl, ?_⟩
  intro level _
  exact operator?_eq_none (fun op => by cases op <;> rfl) level

/-- Whatever closes or divides a list ends its last expression. -/
theorem closing {c : Char} (hc : c = ')' ∨ c = ']' ∨ c = '}' ∨ c = ',') (rest : List Char) :
    Ends levels (c :: rest) := by
  have hsolid : isSolid c = true := by rcases hc with rfl | rfl | rfl | rfl <;> decide
  refine ⟨?_, ?_, fun level _ => ?_⟩
  · rcases hc with rfl | rfl | rfl | rfl <;> rfl
  · rcases hc with rfl | rfl | rfl | rfl <;> rfl
  · rw [Text.skip_cons hsolid]
    exact operator?_cons (by rcases hc with rfl | rfl | rfl | rfl <;> decide) level rest

/-- After a space or a newline, only operators can go on with an expression. -/
theorem blank {b : Char} (hb : b = ' ' ∨ b = '\n')
    (h : ∀ level ∈ levels, operator? level (skip rest) = none) : Ends levels (b :: rest) := by
  rcases hb with rfl | rfl
  · exact ⟨rfl, rfl, h⟩
  · exact ⟨rfl, rfl, h⟩

end Ends

/-! ## Small steps of reading -/

theorem ok_bind {α β : Type} (a : α) (f : α → Except Fault β) : (Except.ok a >>= f) = f a := rfl

theorem eat?_self (c : Char) (rest : List Char) : eat? c (c :: rest) = some rest := if_pos rfl

theorem eat?_ne {c d : Char} (h : d ≠ c) (rest : List Char) : eat? c (d :: rest) = none := if_neg h

theorem expect_self (c : Char) (rest : List Char) : expect c (c :: rest) = .ok rest := by
  rw [expect, eat?_self]

/-! ## Lists -/

section

variable {α : Type} {close : Char} {item : Reader α} {text : α → List Char}

theorem items_space (n : Nat) (rest : List Char) :
    items close item (n + 1) (' ' :: rest) = items close item (n + 1) rest := by
  rw [items, items, Text.skip_space]

/-- Items with commas between them are read back, if each is read back in front of a comma and in
front of the closing character. -/
theorem items_joined (hclose : isSolid close = true) (hcomma : close ≠ ',') {as : List α}
    (hne : as ≠ []) (hskip : ∀ a ∈ as, ∀ rest, skip (text a ++ rest) = text a ++ rest)
    (hread : ∀ a ∈ as, ∀ c rest, c = ',' ∨ c = close →
      item (text a ++ c :: rest) = .ok (a, c :: rest))
    {n : Nat} (hn : as.length ≤ n) (rest : List Char) :
    items close item n (joined (as.map text) ++ close :: rest) = .ok (as, rest) := by
  induction as generalizing n with
  | nil => exact absurd rfl hne
  | cons a as ih =>
    obtain ⟨n, rfl⟩ : ∃ k, n = k + 1 := ⟨n - 1, by rw [List.length_cons] at hn; omega⟩
    cases as with
    | nil =>
      rw [List.map_singleton, joined, items, hskip a List.mem_cons_self,
        hread a List.mem_cons_self close rest (Or.inr rfl), ok_bind]
      simp only [Text.skip_cons hclose, eat?_ne hcomma, expect_self, ok_bind]
    | cons b bs =>
      have htext : joined ((a :: b :: bs).map text) ++ close :: rest =
          text a ++ ',' :: ' ' :: (joined ((b :: bs).map text) ++ close :: rest) := by
        simp [joined_cons_cons]
      obtain ⟨m, rfl⟩ : ∃ k, n = k + 1 := ⟨n - 1, by simp only [List.length_cons] at hn; omega⟩
      have hothers := ih (List.cons_ne_nil b bs)
        (fun x hx => hskip x (List.mem_cons_of_mem a hx))
        (fun x hx => hread x (List.mem_cons_of_mem a hx))
        (by simp only [List.length_cons] at hn ⊢; omega : (b :: bs).length ≤ m + 1)
      rw [htext, items, hskip a List.mem_cons_self,
        hread a List.mem_cons_self ',' _ (Or.inl rfl), ok_bind]
      simp only [Text.skip_cons (show isSolid ',' = true by decide), eat?_self, items_space,
        hothers, ok_bind]

/-- Any number of items up to a closing character is read back. -/
theorem enclosed_joined (hclose : isSolid close = true) (hcomma : close ≠ ',') {as : List α}
    (hstart : ∀ a ∈ as, ∃ c cs, text a = c :: cs ∧ isSolid c = true ∧ c ≠ close)
    (hread : ∀ a ∈ as, ∀ c rest, c = ',' ∨ c = close →
      item (text a ++ c :: rest) = .ok (a, c :: rest))
    {n : Nat} (hn : as.length ≤ n) (rest : List Char) :
    enclosed close item n (joined (as.map text) ++ close :: rest) = .ok (as, rest) := by
  cases as with
  | nil =>
    rw [List.map_nil, joined, List.nil_append, enclosed, Text.skip_cons hclose, eat?_self]
  | cons a as =>
    have hskip : ∀ x ∈ a :: as, ∀ rest, skip (text x ++ rest) = text x ++ rest := by
      intro x hx rest
      obtain ⟨c, cs, htext, hc, -⟩ := hstart x hx
      rw [htext]
      exact Text.skip_cons hc _
    obtain ⟨c, cs, htext, hsolid, hne⟩ := hstart a List.mem_cons_self
    obtain ⟨more, hmore⟩ : ∃ more, joined ((a :: as).map text) ++ close :: rest = c :: more := by
      cases as with
      | nil => exact ⟨_, by rw [List.map_singleton, joined, htext, List.cons_append]⟩
      | cons b bs =>
        exact ⟨_, by rw [List.map_cons, List.map_cons, joined_cons_cons, htext]; rfl⟩
    have hitems := items_joined hclose hcomma (List.cons_ne_nil a as) hskip hread hn rest
    rw [hmore] at hitems ⊢
    rw [enclosed, Text.skip_cons hsolid, eat?_ne hne, hitems]

end

/-! ## Expressions inside others -/

/-- A reader that gives back every written expression that is shorter than a bound. -/
def ReadsBack (style : Style) (expr : Reader Expr) (n : Nat) : Prop :=
  ∀ e : Expr, e.Plain → (e.write style).length < n → ∀ rest, Ends Operator.levels rest →
    expr (e.write style ++ rest) = .ok (e, rest)

section

variable {style : Style} {expr : Reader Expr} {n : Nat}

theorem parenthesized_write (hexpr : ReadsBack style expr n) {e : Expr} (he : e.Plain)
    (hlength : (e.write style).length < n) (rest : List Char) :
    parenthesized expr (e.write style ++ ')' :: rest) = .ok (e, rest) := by
  have hread := hexpr e he hlength (')' :: rest) (Ends.closing (by simp) rest)
  rw [parenthesized, Expr.skip_write style he, hread, ok_bind]
  simp only [Text.skip_cons (show isSolid ')' = true by decide), expect_self, ok_bind]

/-- The length of a text in a list is below that of the whole list. -/
theorem length_le_length_joined {text : List Char} {texts : List (List Char)}
    (h : text ∈ texts) : text.length ≤ (joined texts).length := by
  induction texts with
  | nil => exact absurd h List.not_mem_nil
  | cons first others ih =>
    cases others with
    | nil => exact Nat.le_of_eq (by rw [joined, List.mem_singleton.1 h])
    | cons next others =>
      rw [joined_cons_cons, List.length_append, List.length_cons, List.length_cons]
      rcases List.mem_cons.1 h with rfl | h
      · omega
      · have := ih h
        omega

theorem length_le_length_joined_add_one (texts : List (List Char)) :
    texts.length ≤ (joined texts).length + 1 := by
  induction texts with
  | nil => exact Nat.zero_le _
  | cons first others ih =>
    cases others with
    | nil => exact Nat.le_add_left _ _
    | cons next others =>
      rw [joined_cons_cons, List.length_append, List.length_cons, List.length_cons]
      simp only [List.length_cons] at ih ⊢
      omega

/-- Written expressions are read back as the elements of a list or the arguments of a call. -/
theorem enclosed_write (hexpr : ReadsBack style expr n) {close : Char}
    (hclose : close = ')' ∨ close = ']') {es : List Expr} (hes : Expr.PlainEach es)
    (hlength : (joined (Expr.writeEach style es)).length < n) (rest : List Char) :
    enclosed close expr (n + 1) (joined (Expr.writeEach style es) ++ close :: rest) =
      .ok (es, rest) := by
  rw [Expr.writeEach_eq_map] at hlength ⊢
  refine enclosed_joined ?_ ?_ ?_ ?_ ?_ rest
  · rcases hclose with rfl | rfl <;> decide
  · rcases hclose with rfl | rfl <;> decide
  · intro e he
    obtain ⟨c, cs, htext, hc⟩ := Expr.opensExpr_write style (Expr.plainEach_iff.1 hes e he)
    refine ⟨c, cs, htext, isSolid_of_startsExpr hc, ?_⟩
    rintro rfl
    rcases hclose with rfl | rfl
    · exact absurd hc (by decide)
    · exact absurd hc (by decide)
  · intro e he c more hc
    have hle := length_le_length_joined (List.mem_map_of_mem he (f := Expr.write style))
    refine hexpr e (Expr.plainEach_iff.1 hes e he) (by omega) (c :: more) (Ends.closing ?_ more)
    rcases hc with rfl | rfl
    · simp
    · rcases hclose with rfl | rfl <;> simp
  · have := length_le_length_joined_add_one (es.map (Expr.write style))
    rw [List.length_map] at this
    omega

/-! ## Objects -/

theorem fields_space (k : Nat) (rest : List Char) :
    fields expr (k + 1) (' ' :: rest) = fields expr (k + 1) rest := by
  rw [fields, fields, Text.skip_space]

theorem fieldKey_stringText (key : String) (rest : List Char) :
    fieldKey (stringText key ++ rest) = .ok (key, rest) := by
  have hread := string_append key rest
  have htext : stringText key ++ rest = '"' :: (key.toList.flatMap escaped ++ ['"'] ++ rest) := by
    rw [stringText, List.cons_append]
  rw [htext] at hread ⊢
  rw [fieldKey, eat?_self, Option.isSome_some, if_pos rfl, hread]

theorem skip_writeField (style : Style) (field : String × Expr) (rest : List Char) :
    skip (Expr.writeField style field ++ rest) = Expr.writeField style field ++ rest :=
  Text.skip_cons (show isSolid '"' = true by decide) _

/-- Reads what follows a field of an object: a comma and further fields, or the closing brace. -/
def moreFields (expr : Reader Expr) (k : Nat) (field : String × Expr) :
    Reader (List (String × Expr)) := fun text =>
  match eat? ',' text with
  | some rest => do
    let (others, text) ← fields expr k rest
    .ok (field :: others, text)
  | none => do
    let text ← expect '}' text
    .ok ([field], text)

/-- A field is read back up to the comma or the brace after it. -/
theorem fields_writeField (hexpr : ReadsBack style expr n) {field : String × Expr}
    (hfield : field.2.Plain) (hlength : (Expr.writeField style field).length < n) (k : Nat)
    {c : Char} (hc : c = ',' ∨ c = '}') (rest : List Char) :
    fields expr (k + 1) (Expr.writeField style field ++ c :: rest) =
      moreFields expr k field (c :: rest) := by
  obtain ⟨key, e⟩ := field
  have hskip := skip_writeField style (key, e) (c :: rest)
  have hvalue : (e.write style).length < n := by
    simp only [Expr.writeField, List.length_append, List.length_cons] at hlength
    omega
  have hread := hexpr e hfield hvalue (c :: rest)
    (Ends.closing (by rcases hc with rfl | rfl <;> simp) rest)
  have hsolid : isSolid c = true := by rcases hc with rfl | rfl <;> decide
  have hbrace : eat? '}' (Expr.writeField style (key, e) ++ c :: rest) = none := by
    rw [Expr.writeField, stringText, List.cons_append]
    exact eat?_ne (by decide) _
  rw [fields, hskip, hbrace]
  simp only [Expr.writeField, List.append_assoc, List.cons_append, fieldKey_stringText, ok_bind,
    Text.skip_cons (show isSolid ':' = true by decide), expect_self, Text.skip_space,
    Expr.skip_write style hfield, hread, Text.skip_cons hsolid]
  rfl

theorem fields_write (hexpr : ReadsBack style expr n) {fs : List (String × Expr)}
    (hfs : ∀ field ∈ fs, field.2.Plain)
    (hlength : ∀ field ∈ fs, (Expr.writeField style field).length < n) {k : Nat}
    (hk : fs.length < k) (rest : List Char) :
    fields expr k (joined (fs.map (Expr.writeField style)) ++ '}' :: rest) = .ok (fs, rest) := by
  induction fs generalizing k with
  | nil =>
    obtain ⟨k, rfl⟩ : ∃ j, k = j + 1 := ⟨k - 1, by omega⟩
    rw [List.map_nil, joined, List.nil_append, fields,
      Text.skip_cons (show isSolid '}' = true by decide), eat?_self]
  | cons field fs ih =>
    obtain ⟨k, rfl⟩ : ∃ j, k = j + 2 :=
      ⟨k - 2, by simp only [List.length_cons] at hk; omega⟩
    have hplain := hfs field List.mem_cons_self
    have hshort := hlength field List.mem_cons_self
    cases fs with
    | nil =>
      rw [List.map_singleton, joined,
        fields_writeField hexpr hplain hshort (k + 1) (Or.inr rfl) rest, moreFields,
        eat?_ne (by decide)]
      simp only [expect_self, ok_bind]
    | cons next others =>
      have hothers := ih (fun x hx => hfs x (List.mem_cons_of_mem field hx))
        (fun x hx => hlength x (List.mem_cons_of_mem field hx))
        (by simp only [List.length_cons] at hk ⊢; omega : (next :: others).length < k + 1)
      rw [List.map_cons, List.map_cons, joined_cons_cons, List.append_assoc, List.cons_append,
        List.cons_append, fields_writeField hexpr hplain hshort (k + 1) (Or.inl rfl) _, moreFields,
        eat?_self]
      simp only [fields_space]
      rw [← List.map_cons, hothers, ok_bind]

theorem object_write (hexpr : ReadsBack style expr n) {fs : List (String × Expr)}
    (hfs : Expr.PlainFields fs)
    (hlength : (joined (Expr.writeFields style fs)).length < n) (rest : List Char) :
    object expr (n + 1) ('{' :: (joined (Expr.writeFields style fs) ++ '}' :: rest)) =
      .ok (fs, rest) := by
  rw [Expr.writeFields_eq_map] at hlength ⊢
  rw [object, expect_self, ok_bind]
  refine fields_write hexpr (Expr.plainFields_iff.1 hfs) ?_ ?_ rest
  · intro field hfield
    have := length_le_length_joined (List.mem_map_of_mem hfield (f := Expr.writeField style))
    omega
  · have := length_le_length_joined_add_one (fs.map (Expr.writeField style))
    rw [List.length_map] at this
    omega

end

end Reader

end Dialogue
