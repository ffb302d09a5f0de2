import Dialogue.Lowering.Expression
import Dialogue.Proofs.Written.Integer
import Dialogue.Proofs.Written.Lexeme

/-!
# Expressions from programs

An expression can be read off what it is lowered to. Names, texts and null share strings, and calls,
lists, operators, indexings and tests share arrays, so `Json.decode` looks at the first character of
a string, and at the head and the length of an array. It gives the expression back up to two things
that lowering does not keep (`Expr.canonical`): `is` is the operator `==`, and zero has no sign.

Not every expression is `Decodable`: a spread or a preference leaves no trace, a test looks at its
first argument only, a repeated key is kept once, and calls of `get` and `in` with two arguments
look like an indexing and an operator.
-/

namespace Dialogue

open Reader (isSymbol)

/-! ## What lowering does not keep -/

/-- The operator without its other spelling. -/
def Operator.canonical : Operator → Operator
  | .is => .eq
  | op => op

/-- The number without the sign of zero. -/
def Double.canonical (v : Double) : Double := if v.isZero then .finite (.zero false) else v

/-- The constant without the sign of zero. -/
def Literal.canonical : Literal → Literal
  | .number v => .number v.canonical
  | value => value

mutual

/-- The expression with `==` for `is`, and zeros without sign. -/
def Expr.canonical : Expr → Expr
  | .binary op left right => .binary op.canonical left.canonical right.canonical
  | .not operand => .not operand.canonical
  | .call callee args => .call callee.canonical (Expr.canonicalEach args)
  | .member target property => .member target.canonical property.canonical
  | .name x => .name x
  | .literal value => .literal value.canonical
  | .array elements => .array (Expr.canonicalEach elements)
  | .object fields => .object (Expr.canonicalFields fields)
  | .spread elements => .spread (Expr.canonicalEach elements)

/-- Each of a list of expressions in this form. -/
def Expr.canonicalEach : List Expr → List Expr
  | [] => []
  | e :: es => e.canonical :: Expr.canonicalEach es

/-- The fields of an object with values in this form. -/
def Expr.canonicalFields : List (String × Expr) → List (String × Expr)
  | [] => []
  | (key, e) :: fields => (key, e.canonical) :: Expr.canonicalFields fields

end

/-! ## What can be read back -/

/-- A constant that can be read back: a number has to be finite. -/
def Literal.Decodable : Literal → Prop
  | .number v => ∃ x, v = .finite x
  | _ => True

/-- A call with a number of arguments that can be read back. -/
def Expr.Callable (count : Nat) (callee : Expr) : Prop :=
  ∀ x, callee = .name x →
    x ≠ Preference.callName ∧ (x = "exists" → count = 1) ∧ (x = "get" ∨ x = "in" → count ≠ 2)

mutual

/-- An expression that can be read back. -/
def Expr.Decodable : Expr → Prop
  | .binary _ left right => left.Decodable ∧ right.Decodable
  | .not operand => operand.Decodable
  | .call callee args =>
    callee.Decodable ∧ Expr.DecodableEach args ∧ callee.Callable args.length
  | .member target property => target.Decodable ∧ property.Decodable
  | .name x => isSymbol x = true
  | .literal value => value.Decodable
  | .array elements => Expr.DecodableEach elements
  | .object fields => (fields.map Prod.fst).Nodup ∧ Expr.DecodableFields fields
  | .spread _ => False

/-- Expressions that can be read back. -/
def Expr.DecodableEach : List Expr → Prop
  | [] => True
  | e :: es => e.Decodable ∧ Expr.DecodableEach es

/-- Fields whose values can be read back. -/
def Expr.DecodableFields : List (String × Expr) → Prop
  | [] => True
  | (_, e) :: fields => e.Decodable ∧ Expr.DecodableFields fields

end

/-! ## Reading back -/

/-- The text between backticks, if a string starts with one. -/
def unquoted? (text : String) : Option String :=
  match text.toList with
  | '`' :: rest => some (String.ofList rest.dropLast)
  | _ => none

/-- The operator that a symbol stands for. -/
def Operator.ofSymbol? (symbol : String) : Option Operator :=
  (Operator.levels.flatten.filter (· ≠ .is)).find? (·.symbol = symbol)

namespace Expr

/-- The expression that a string stands for: a text in backticks, or a name. -/
def ofString (text : String) : Expr :=
  match unquoted? text with
  | some content => .literal (.string content)
  | none => .name text

/-- The expression that an array stands for, from the string at its head and the operands. -/
def ofOperation (head : String) (args : List Expr) : Expr :=
  if head = "" then .array args
  else if head = "?" then .call (.name "exists") args
  else
    match args with
    | [operand] => if head = "!" then .not operand else .call (ofString head) args
    | [first, second] =>
      if head = "get" then .member second first
      else
        match Operator.ofSymbol? head with
        | some op => .binary op first second
        | none => .call (ofString head) args
    | _ => .call (ofString head) args

end Expr

mutual

/-- The expression that a JSON value stands for. -/
def Json.decode : Json → Expr
  | .null => .name "null"
  | .bool b => .literal (.boolean b)
  | .integer n => .literal (.number (.ofInt n))
  | .real x => .literal (.number (.finite x))
  | .string text => .ofString text
  | .array [] => .spread []
  | .array (.string head :: args) => .ofOperation head (Json.decodeEach args)
  | .array (callee :: args) => .call callee.decode (Json.decodeEach args)
  | .object members => .object (Json.decodeMembers members)

/-- The expressions that JSON values stand for. -/
def Json.decodeEach : List Json → List Expr
  | [] => []
  | value :: values => value.decode :: Json.decodeEach values

/-- The fields that the members of an object stand for. -/
def Json.decodeMembers : List (String × Json) → List (String × Expr)
  | [] => []
  | (key, value) :: members =>
    ((unquoted? key).getD key, value.decode) :: Json.decodeMembers members

end

/-! ## Strings and operators -/

theorem unquoted?_quoted (text : String) : unquoted? (quoted text) = some text := by
  have hlist : (quoted text).toList = '`' :: (text.toList ++ ['`']) := by
    simp [quoted, String.toList_append]
  rw [unquoted?, hlist]
  simp

theorem quoted_inj {text text' : String} (h : quoted text = quoted text') : text = text' := by
  have hsome := congrArg unquoted? h
  rw [unquoted?_quoted, unquoted?_quoted] at hsome
  exact Option.some.inj hsome

theorem unquoted?_of_isSymbol {x : String} (h : isSymbol x = true) : unquoted? x = none := by
  obtain ⟨c, cs, hx, hc, -⟩ := Reader.exists_of_isSymbol h
  rw [unquoted?, hx]
  split
  · rename_i heq
    cases heq
    cases hc
  · rfl

theorem Operator.ofSymbol?_symbol (op : Operator) : ofSymbol? op.symbol = some op.canonical := by
  cases op <;> decide

/-- The only operator whose symbol is a word is `in`, and no symbol starts with a backtick. -/
theorem Operator.ofSymbol?_eq_none {head : String}
    (h : isSymbol head = true ∧ head ≠ "in" ∨ (unquoted? head).isSome = true) :
    ofSymbol? head = none := by
  rw [ofSymbol?, List.find?_eq_none]
  rintro op - hsymbol
  obtain rfl := of_decide_eq_true hsymbol
  revert h
  cases op <;> decide

/-! ## Numbers -/

namespace Double

theorem canonical_of_ne_zero {x : FiniteDouble} (h : x.mantissa ≠ 0) :
    (Double.finite x).canonical = .finite x := by
  simp [canonical, isZero, h]

/-- An integer is read back as the number that it was, or as zero. -/
theorem ofInt_toInt? {x : FiniteDouble} {n : Int} (h : x.toInt? = some n) :
    ofInt n = (Double.finite x).canonical := by
  obtain ⟨hmagnitude, hsign⟩ := FiniteDouble.toInt?_eq_some h
  rw [ofInt, hmagnitude]
  by_cases hzero : x.mantissa = 0
  · have hnone := (x.magnitude_eq_zero_iff).2 hzero
    have hn : n.natAbs = 0 := by
      rw [hnone] at hmagnitude
      exact (Nat.mul_eq_zero.1 hmagnitude).resolve_right FiniteDouble.unitsOfOne_ne_zero
    have hpositive : decide (n < 0) = false := decide_eq_false (by omega)
    rw [hpositive, hnone]
    simp only [canonical, isZero, hzero, beq_self_eq_true, if_true]
    exact FiniteDouble.round_magnitude (.zero false)
  · have hn : n.natAbs ≠ 0 := by
      intro hn
      rw [hn, Nat.zero_mul] at hmagnitude
      exact hzero ((x.magnitude_eq_zero_iff).1 hmagnitude.symm)
    have hnegative : decide (n < 0) = x.negative := by
      cases hx : x.negative with
      | true =>
        rw [hx, if_pos rfl] at hsign
        exact decide_eq_true (by omega)
      | false =>
        rw [hx, if_neg Bool.false_ne_true] at hsign
        exact decide_eq_false (by omega)
    rw [hnegative, FiniteDouble.round_magnitude, canonical_of_ne_zero hzero]

theorem decode_lower (x : FiniteDouble) :
    (Double.finite x).lower.decode = .literal (.number (Double.finite x).canonical) := by
  -- zero is an integer, so a number that is kept as it is has its own sign
  have hreal : (∀ n, x.toInt? = some n → ¬ n.natAbs < 2 ^ (53 : Nat)) →
      Double.finite x = (Double.finite x).canonical := by
    intro hbig
    by_cases hzero : x.mantissa = 0
    · exact absurd (by decide) (hbig 0 (FiniteDouble.toInt?_of_mantissa_eq_zero hzero))
    · exact (canonical_of_ne_zero hzero).symm
  rw [Double.lower]
  cases hint : x.toInt? with
  | none =>
    rw [hint] at hreal
    rw [← hreal nofun]
    rfl
  | some n =>
    dsimp only
    split
    · rw [Json.decode, ofInt_toInt? hint]
    · rename_i hbig
      rw [← hreal fun m hm => by rwa [← Option.some.inj (hint.symm.trans hm)]]
      rfl

end Double

/-! ## Operations and calls -/

theorem Literal.decode_lower {value : Literal} (h : value.Decodable) :
    value.lower.decode = .literal value.canonical := by
  cases value with
  | string text =>
    rw [Literal.lower, Json.decode, Expr.ofString, unquoted?_quoted]
    rfl
  | number v =>
    obtain ⟨x, rfl⟩ := h
    exact Double.decode_lower x
  | boolean b => rfl

theorem decode_lowerName {x : String} (h : isSymbol x = true) :
    (lowerName x).decode = .name x := by
  rw [lowerName]
  split
  · rename_i hnull
    rw [hnull]
    rfl
  · rw [Json.decode, Expr.ofString, unquoted?_of_isSymbol h]

namespace Expr

theorem length_canonicalEach (es : List Expr) : (canonicalEach es).length = es.length := by
  induction es with
  | nil => rfl
  | cons e es ih => rw [canonicalEach, List.length_cons, List.length_cons, ih]

theorem eq_name_of_canonical {e : Expr} {x : String} (h : e.canonical = .name x) : e = .name x := by
  cases e with
  | name y => exact h
  | _ => cases h

/-- An array whose head is no mark of an operation is a call. -/
theorem ofOperation_eq_call {head : String} {args : List Expr} (hlist : head ≠ "")
    (htest : head ≠ "?") (hnot : head ≠ "!")
    (hpair : args.length = 2 → head ≠ "get" ∧ Operator.ofSymbol? head = none) :
    ofOperation head args = .call (ofString head) args := by
  unfold ofOperation
  rw [if_neg hlist, if_neg htest]
  split
  · rw [if_neg hnot]
  · obtain ⟨hget, hnone⟩ := hpair rfl
    rw [if_neg hget, hnone]
  · rfl

/-- The head of a call that is a string: a name that may be called so, or a text. -/
theorem ofOperation_callee {callee : Expr} {head : String} {args : List Expr}
    (hcallee : callee.Decodable) (hcall : callee.Callable args.length)
    (hhead : ofString head = callee.canonical) :
    ofOperation head args = .call callee.canonical args := by
  rw [← hhead]
  -- what the head stands for is what is called, so it is a text or the name itself
  cases hquoted : unquoted? head with
  | some text =>
    have hne : ∀ mark, unquoted? mark = none → head ≠ mark := by
      rintro mark hmark rfl
      rw [hmark] at hquoted
      cases hquoted
    apply ofOperation_eq_call (hne _ (by decide)) (hne _ (by decide)) (hne _ (by decide))
    intro _
    refine ⟨hne _ (by decide), Operator.ofSymbol?_eq_none (Or.inr ?_)⟩
    rw [hquoted]
    rfl
  | none =>
    rw [ofString, hquoted] at hhead
    obtain rfl := eq_name_of_canonical hhead.symm
    have hsymbol : isSymbol head = true := hcallee
    have hne : ∀ mark, isSymbol mark = false → head ≠ mark := by
      rintro mark hmark rfl
      rw [hmark] at hsymbol
      cases hsymbol
    obtain ⟨-, -, hpair⟩ := hcall head rfl
    apply ofOperation_eq_call (hne _ (by decide)) (hne _ (by decide)) (hne _ (by decide))
    intro hlength
    have hget : head ≠ "get" := fun hget => hpair (Or.inl hget) hlength
    have hin : head ≠ "in" := fun hin => hpair (Or.inr hin) hlength
    exact ⟨hget, Operator.ofSymbol?_eq_none (Or.inl ⟨hsymbol, hin⟩)⟩

end Expr

theorem Json.decode_call {callee : Expr} {args : List Expr} {j : Json} {values : List Json}
    (hcallee : callee.Decodable) (hcall : callee.Callable args.length)
    (hj : j.decode = callee.canonical)
    (hvalues : Json.decodeEach values = Expr.canonicalEach args) :
    (Json.array (j :: values)).decode = (Expr.call callee args).canonical := by
  rw [Expr.canonical, ← hvalues]
  cases j with
  | string head =>
    rw [Json.decode]
    refine Expr.ofOperation_callee hcallee ?_ hj
    rw [hvalues, Expr.length_canonicalEach]
    exact hcall
  | _ =>
    rw [Json.decode, hj]
    nofun

theorem Expr.ofOperation_symbol (op : Operator) (left right : Expr) :
    Expr.ofOperation op.symbol [left, right] = .binary op.canonical left right := by
  have hmark : op.symbol ≠ "" ∧ op.symbol ≠ "?" ∧ op.symbol ≠ "get" := by
    cases op <;> decide
  obtain ⟨hlist, htest, hget⟩ := hmark
  unfold Expr.ofOperation
  rw [if_neg hlist, if_neg htest]
  dsimp only
  rw [if_neg hget, Operator.ofSymbol?_symbol]

/-! ## Lists and objects -/

theorem Preference.expandCall?_eq_none {e : Expr} (h : e.Decodable) :
    Preference.expandCall? e = .ok none := by
  unfold Preference.expandCall?
  split
  · rename_i x args
    obtain ⟨-, -, hcall⟩ := h
    rw [if_neg (hcall x rfl).1]
  · rfl

/-- Nothing joins a list around it, so elements are lowered one by one. -/
theorem Expr.lowerElements_eq_lowerEach : ∀ {es : List Expr}, Expr.DecodableEach es →
    Expr.lowerElements es = Expr.lowerEach es
  | [], _ => rfl
  | e :: es, h => by
    rw [Expr.lowerElements, Preference.expandCall?_eq_none h.1, Expr.lowerEach,
      Expr.lowerElements_eq_lowerEach h.2]
    · rfl
    · rintro elements rfl
      exact h.1

/-- The keys of the fields that follow are still new after a field is added. -/
theorem Json.fresh_append {key : String} {fields : List (String × Expr)}
    {before : List (String × Json)} (hkey : key ∉ fields.map Prod.fst)
    (hbefore : ∀ field ∈ fields, quoted field.1 ∉ before.map Prod.fst) (value : Json) :
    ∀ field ∈ fields, quoted field.1 ∉ (before ++ [(quoted key, value)]).map Prod.fst := by
  intro field hfield hmem
  rw [List.map_append, List.mem_append] at hmem
  rcases hmem with hmem | hmem
  · exact hbefore field hfield hmem
  · have hname : field.1 ∈ fields.map Prod.fst := List.mem_map_of_mem hfield
    rw [quoted_inj (List.mem_singleton.1 hmem)] at hname
    exact hkey hname

/-! ## Expressions -/

/-- A test with one argument. -/
theorem Expr.decode_lowerExists {args : List Expr} {values : List Json} (hlength : args.length = 1)
    (hvalues : Expr.lowerEach args = .ok values)
    (heach : Json.decodeEach values = Expr.canonicalEach args) :
    ∃ j, Expr.lowerExists args = .ok j ∧
      j.decode = .call (.name "exists") (Expr.canonicalEach args) := by
  obtain ⟨e, rfl⟩ := List.length_eq_one_iff.1 hlength
  rw [Expr.lowerEach] at hvalues
  rw [Expr.lowerExists]
  cases hvalue : e.lower with
  | error problem =>
    rw [hvalue] at hvalues
    cases hvalues
  | ok value =>
    rw [hvalue] at hvalues
    cases hvalues
    refine ⟨.array [.string "?", value], rfl, ?_⟩
    rw [Json.decode, heach]
    rfl

mutual

/-- An expression is lowered, and can be read back. -/
theorem Expr.decode_lower : ∀ e : Expr, e.Decodable →
    ∃ j, e.lower = .ok j ∧ j.decode = e.canonical
  | .binary op left right, h => by
    obtain ⟨l, hl, hleft⟩ := Expr.decode_lower left h.1
    obtain ⟨r, hr, hright⟩ := Expr.decode_lower right h.2
    refine ⟨.array [.string op.symbol, l, r], by rw [Expr.lower, hl, hr]; rfl, ?_⟩
    simp only [Json.decode, Json.decodeEach, hleft, hright, Expr.ofOperation_symbol, Expr.canonical]
  | .not operand, h => by
    obtain ⟨value, hvalue, hoperand⟩ := Expr.decode_lower operand h
    refine ⟨.array [.string "!", value], by rw [Expr.lower, hvalue]; rfl, ?_⟩
    simp only [Json.decode, Json.decodeEach, hoperand, Expr.canonical]
    rfl
  | .call callee args, ⟨hcallee, hargs, hcall⟩ => by
    obtain ⟨j, hj, hdecode⟩ := Expr.decode_lower callee hcallee
    obtain ⟨values, hvalues, heach⟩ := Expr.decode_lowerEach args hargs
    rw [Expr.lower]
    by_cases hexists : callee.isName "exists" = true
    · obtain rfl := Expr.isName_eq_true_iff.1 hexists
      rw [if_pos hexists]
      exact Expr.decode_lowerExists ((hcall "exists" rfl).2.1 rfl) hvalues heach
    · have hpreference : ¬ callee.isName Preference.callName = true := by
        intro hname
        exact (hcall _ (Expr.isName_eq_true_iff.1 hname)).1 rfl
      rw [if_neg hexists, if_neg hpreference, hj, hvalues]
      exact ⟨.array (j :: values), rfl, Json.decode_call hcallee hcall hdecode heach⟩
  | .member target property, h => by
    obtain ⟨root, hroot, htarget⟩ := Expr.decode_lower target h.1
    obtain ⟨key, hkey, hproperty⟩ := Expr.decode_lower property h.2
    refine ⟨.array [.string "get", key, root], by rw [Expr.lower, hkey, hroot]; rfl, ?_⟩
    simp only [Json.decode, Json.decodeEach, htarget, hproperty, Expr.canonical]
    rfl
  | .name x, h => ⟨_, rfl, decode_lowerName h⟩
  | .literal value, h => ⟨_, rfl, Literal.decode_lower h⟩
  | .array elements, h => by
    obtain ⟨values, hvalues, heach⟩ := Expr.decode_lowerEach elements h
    refine ⟨.list values, ?_, ?_⟩
    · rw [Expr.lower, Expr.lowerElements_eq_lowerEach h, hvalues]
      rfl
    · rw [Json.list, Json.decode, heach, Expr.canonical]
      rfl
  | .object fields, ⟨hkeys, hfields⟩ => by
    obtain ⟨members, hmembers, heach⟩ := Expr.decode_lowerFields fields [] hkeys nofun hfields
    refine ⟨.object members, by rw [Expr.lower, hmembers]; rfl, ?_⟩
    rw [Json.decode, heach, Expr.canonical]
  | .spread _, h => h.elim

theorem Expr.decode_lowerEach : ∀ es : List Expr, Expr.DecodableEach es →
    ∃ values, Expr.lowerEach es = .ok values ∧ Json.decodeEach values = Expr.canonicalEach es
  | [], _ => ⟨[], rfl, rfl⟩
  | e :: es, h => by
    obtain ⟨value, hvalue, hdecode⟩ := Expr.decode_lower e h.1
    obtain ⟨values, hvalues, heach⟩ := Expr.decode_lowerEach es h.2
    refine ⟨value :: values, by rw [Expr.lowerEach, hvalue, hvalues]; rfl, ?_⟩
    rw [Json.decodeEach, hdecode, heach, Expr.canonicalEach]

theorem Expr.decode_lowerFields : ∀ (fields : List (String × Expr)) (before : List (String × Json)),
    (fields.map Prod.fst).Nodup →
    (∀ field ∈ fields, quoted field.1 ∉ before.map Prod.fst) → Expr.DecodableFields fields →
    ∃ members, Expr.lowerFields before fields = .ok (before ++ members) ∧
      Json.decodeMembers members = Expr.canonicalFields fields
  | [], before, _, _, _ => ⟨[], by rw [Expr.lowerFields, List.append_nil], rfl⟩
  | (key, e) :: fields, before, hkeys, hbefore, h => by
    obtain ⟨value, hvalue, hdecode⟩ := Expr.decode_lower e h.1
    obtain ⟨hkey, hothers⟩ := List.nodup_cons.1 hkeys
    obtain ⟨hfresh, hfreshOthers⟩ := List.forall_mem_cons.1 hbefore
    obtain ⟨members, hmembers, heach⟩ := Expr.decode_lowerFields fields
      (before ++ [(quoted key, value)]) hothers (Json.fresh_append hkey hfreshOthers value) h.2
    refine ⟨(quoted key, value) :: members, ?_, ?_⟩
    · rw [Expr.lowerFields, hvalue]
      change Expr.lowerFields (Json.insert (quoted key) value before) fields = _
      rw [Json.insert_of_not_mem hfresh, hmembers, List.append_assoc]
      rfl
    · rw [Json.decodeMembers, unquoted?_quoted, hdecode, heach, Expr.canonicalFields]
      rfl

end

/-! ## Nothing else is lost -/

theorem Operator.symbol_canonical (op : Operator) : op.canonical.symbol = op.symbol := by
  cases op <;> rfl

theorem Double.lower_canonical (v : Double) : v.canonical.lower = v.lower := by
  rw [Double.canonical]
  split
  · rename_i hzero
    cases v with
    | finite x =>
      have hmantissa : x.mantissa = 0 := by simpa [Double.isZero] using hzero
      have hunsigned : (FiniteDouble.zero false).toInt? = some 0 :=
        FiniteDouble.toInt?_of_mantissa_eq_zero rfl
      rw [Double.lower, Double.lower, hunsigned, FiniteDouble.toInt?_of_mantissa_eq_zero hmantissa]
      rfl
    | _ => cases hzero
  · rfl

theorem Literal.lower_canonical (value : Literal) : value.canonical.lower = value.lower := by
  cases value with
  | number v => exact v.lower_canonical
  | _ => rfl

theorem Expr.isName_canonical (e : Expr) (x : String) : e.canonical.isName x = e.isName x := by
  cases e <;> rfl

theorem Preference.expandCall?_canonical {e : Expr} (h : e.Decodable) :
    Preference.expandCall? e.canonical = .ok none := by
  cases e with
  | call callee args =>
    obtain ⟨-, -, hcall⟩ := h
    unfold Preference.expandCall? Expr.canonical
    split
    · rename_i heq
      injection heq with hname
      rw [if_neg (hcall _ (Expr.eq_name_of_canonical hname)).1]
    · rfl
  | _ => rfl

mutual

/-- What lowering does not keep makes no difference to it. -/
theorem Expr.lower_canonical : ∀ e : Expr, e.Decodable → e.canonical.lower = e.lower
  | .binary op left right, h => by
    rw [Expr.canonical, Expr.lower, Expr.lower, Expr.lower_canonical left h.1,
      Expr.lower_canonical right h.2, op.symbol_canonical]
  | .not operand, h => by
    rw [Expr.canonical, Expr.lower, Expr.lower, Expr.lower_canonical operand h]
  | .call callee args, ⟨hcallee, hargs, hcall⟩ => by
    have hpreference : ¬ callee.isName Preference.callName = true := by
      intro hname
      exact (hcall _ (Expr.isName_eq_true_iff.1 hname)).1 rfl
    rw [Expr.canonical, Expr.lower, Expr.lower, Expr.isName_canonical, Expr.isName_canonical,
      if_neg hpreference, if_neg hpreference, Expr.lower_canonical callee hcallee,
      Expr.lowerEach_canonical args hargs, Expr.lowerExists_canonical args hargs]
  | .member target property, h => by
    rw [Expr.canonical, Expr.lower, Expr.lower, Expr.lower_canonical target h.1,
      Expr.lower_canonical property h.2]
  | .name _, _ => rfl
  | .literal value, _ => by
    rw [Expr.canonical, Expr.lower, Expr.lower, value.lower_canonical]
  | .array elements, h => by
    rw [Expr.canonical, Expr.lower, Expr.lower, Expr.lowerElements_canonical elements h]
  | .object fields, h => by
    rw [Expr.canonical, Expr.lower, Expr.lower, Expr.lowerFields_canonical fields [] h.2]
  | .spread _, h => h.elim

theorem Expr.lowerExists_canonical : ∀ es : List Expr, Expr.DecodableEach es →
    Expr.lowerExists (Expr.canonicalEach es) = Expr.lowerExists es
  | [], _ => rfl
  | e :: es, h => by
    rw [Expr.canonicalEach, Expr.lowerExists, Expr.lowerExists, Expr.lower_canonical e h.1]

theorem Expr.lowerEach_canonical : ∀ es : List Expr, Expr.DecodableEach es →
    Expr.lowerEach (Expr.canonicalEach es) = Expr.lowerEach es
  | [], _ => rfl
  | e :: es, h => by
    rw [Expr.canonicalEach, Expr.lowerEach, Expr.lowerEach, Expr.lower_canonical e h.1,
      Expr.lowerEach_canonical es h.2]

theorem Expr.lowerElements_canonical : ∀ es : List Expr, Expr.DecodableEach es →
    Expr.lowerElements (Expr.canonicalEach es) = Expr.lowerElements es
  | [], _ => rfl
  | e :: es, h => by
    rw [Expr.canonicalEach, Expr.lowerElements, Expr.lowerElements, Expr.lower_canonical e h.1,
      Expr.lowerElements_canonical es h.2, Preference.expandCall?_canonical h.1,
      Preference.expandCall?_eq_none h.1]
    · rintro elements rfl
      exact h.1
    · intro elements hspread
      cases e with
      | spread _ => exact h.1
      | _ => cases hspread

theorem Expr.lowerFields_canonical : ∀ (fields : List (String × Expr))
    (members : List (String × Json)), Expr.DecodableFields fields →
    Expr.lowerFields members (Expr.canonicalFields fields) = Expr.lowerFields members fields
  | [], _, _ => rfl
  | (key, e) :: fields, members, h => by
    rw [Expr.canonicalFields, Expr.lowerFields, Expr.lowerFields, Expr.lower_canonical e h.1]
    simp only [Expr.lowerFields_canonical fields _ h.2]

end

/-- What an expression is lowered to determines the expression. Every expression that can be read
back is lowered, and reading back gives the expression with `==` for `is` and zeros without sign; so
two such expressions are lowered to the same JSON exactly if they differ in nothing else. -/
theorem Expr.lower_eq_lower_iff (e e' : Expr) (h : e.Decodable) (h' : e'.Decodable) :
    (∃ j, e.lower = .ok j ∧ j.decode = e.canonical) ∧
      (e.lower = e'.lower ↔ e.canonical = e'.canonical) := by
  obtain ⟨j, hj, hdecode⟩ := Expr.decode_lower e h
  obtain ⟨j', hj', hdecode'⟩ := Expr.decode_lower e' h'
  refine ⟨⟨j, hj, hdecode⟩, ?_, ?_⟩
  · intro heq
    rw [hj, hj'] at heq
    rw [← hdecode, ← hdecode', Except.ok.inj heq]
  · intro heq
    rw [← Expr.lower_canonical e h, heq, Expr.lower_canonical e' h']

/-- Two spellings that are lowered alike. -/
theorem Expr.lower_eq_lower_iff_zero :
    (Expr.binary .is (.name "a") (.literal (.number (.finite (.zero true))))).lower =
      (Expr.binary .eq (.name "a") (.literal (.number (.finite (.zero false))))).lower := by
  have hsymbol : isSymbol "a" = true := by decide
  have hzero : ∀ (op : Operator) (negative : Bool),
      (Expr.binary op (.name "a") (.literal (.number (.finite (.zero negative))))).Decodable :=
    fun op negative => ⟨hsymbol, _, rfl⟩
  exact (Expr.lower_eq_lower_iff _ _ (hzero .is true) (hzero .eq false)).2.2 rfl

end Dialogue
