import Dialogue.Proofs.RoundTrip.Block

/-!
# Statements are read back

Each form of a statement is read back, given readers for the expressions and the statements
inside it; `oneStatement_spelled` puts the forms together. A keyword is recognised by what follows
it, since a name may be a keyword too. A chain of `if` and `else` goes on as long as an `else`
follows, so it has to stand in front of something else.
-/

namespace Dialogue

open Text (skip isSolid isBlank)

/-! ## Targets -/

theorem Expr.unindexBefore_indexed (keys others : List Expr) (root : Expr) :
    (root.indexed keys).unindexBefore others = root.unindexBefore (keys ++ others) := by
  induction keys generalizing root with
  | nil => rfl
  | cons key keys ih => exact ih (root.member key)

theorem Expr.unindexBefore_of_isMember {root : Expr} (h : root.isMember = false)
    (keys : List Expr) : root.unindexBefore keys = (root, keys) := by
  cases root with
  | member target property => cases h
  | _ => rfl

/-- The root of a chain of indexings is none itself, and the keys before it stay last. -/
theorem Expr.unindexBefore_root (e : Expr) (keys : List Expr) :
    (e.unindexBefore keys).1.isMember = false ∧ keys <:+ (e.unindexBefore keys).2 := by
  fun_induction Expr.unindexBefore keys e with
  | case1 keys target property ih =>
    obtain ⟨hroot, hsuffix⟩ := ih
    exact ⟨hroot, (List.suffix_cons property keys).trans hsuffix⟩
  | case2 keys e hmember =>
    refine ⟨?_, List.suffix_refl keys⟩
    cases e with
    | member target property => exact absurd rfl (hmember target property)
    | _ => rfl

theorem Expr.unindex_member (target property : Expr) :
    (Expr.member target property).unindex.1.isMember = false ∧
      (Expr.member target property).unindex.2 ≠ [] := by
  obtain ⟨hroot, hsuffix⟩ := target.unindexBefore_root [property]
  refine ⟨hroot, ?_⟩
  exact List.ne_nil_of_length_pos (Nat.lt_of_lt_of_le Nat.one_pos hsuffix.length_le)

theorem Expr.isMember_indexed {root : Expr} (h : root.isMember = true) (keys : List Expr) :
    (root.indexed keys).isMember = true := by
  induction keys generalizing root with
  | nil => exact h
  | cons key keys ih => exact ih rfl

theorem Expr.plain_indexed {root : Expr} {keys : List Expr} (hroot : root.Plain)
    (hkeys : ∀ key ∈ keys, key.Plain) : (root.indexed keys).Plain := by
  induction keys generalizing root with
  | nil => exact hroot
  | cons key keys ih =>
    exact ih (show (root.member key).Plain from ⟨hroot, hkeys key List.mem_cons_self⟩)
      fun other hother => hkeys other (List.mem_cons_of_mem key hother)

theorem Target.ofElements_member {e : Expr} (h : e.isMember = true) :
    Target.ofElements [e] = .edit e.unindex.1 e.unindex.2 := by
  cases e with
  | member target property => rfl
  | _ => cases h

/-- A chain of indexings of a root that is none itself makes an edit of that root. -/
theorem Target.ofElements_indexed {root : Expr} (hroot : root.isMember = false) {keys : List Expr}
    (hkeys : keys ≠ []) : Target.ofElements [root.indexed keys] = .edit root keys := by
  obtain ⟨key, others, rfl⟩ := List.exists_cons_of_ne_nil hkeys
  have hmember : (root.indexed (key :: others)).isMember = true :=
    Expr.isMember_indexed (show (root.member key).isMember = true from rfl) others
  rw [Target.ofElements_member hmember, Expr.unindex, Expr.unindexBefore_indexed,
    Expr.unindexBefore_of_isMember hroot, List.append_nil]

theorem Target.ofElements_list {es : List Expr}
    (h : ∀ e, es = [e] → e.isMember = false) : Target.ofElements es = .list es := by
  rw [Target.ofElements]
  intro target property heq
  exact Bool.noConfusion (h _ heq)

/-- A target is made again from the expressions that it is written with. -/
theorem Target.ofElements_elements {target : Target} (h : target.Plain) :
    Target.ofElements target.elements = target := by
  cases target with
  | name x => exact h.elim
  | list elements => exact Target.ofElements_list h.2.1
  | edit root keys =>
    obtain ⟨hne, hroot, -⟩ := h
    exact Target.ofElements_indexed hroot hne

theorem Target.plain_elements {target : Target} (h : target.Plain) :
    ∀ e ∈ target.elements, e.Plain := by
  cases target with
  | name x => exact h.elim
  | list elements => exact h.2.2
  | edit root keys =>
    intro e he
    rw [List.mem_singleton.1 he]
    exact Expr.plain_indexed h.2.2.1 h.2.2.2

namespace Reader

/-! ## Readers for what stands inside -/

theorem ReadsBack.mono {style : Style} {expr : Reader Expr} {m n : Nat}
    (h : ReadsBack style expr n) (hmn : m ≤ n) : ReadsBack style expr m :=
  fun e he hlength => h e he (Nat.lt_of_lt_of_le hlength hmn)

theorem ReadsWrapped.mono {expr : Reader Expr} {m n : Nat} (h : ReadsWrapped expr n)
    (hmn : m ≤ n) : ReadsWrapped expr m :=
  fun e he hlength => h e he (Nat.lt_of_lt_of_le hlength hmn)

theorem readsWrapped_expressionAt (n : Nat) : ReadsWrapped (expressionAt n) n := by
  cases n with
  | zero => exact fun e _ hlength => absurd hlength (Nat.not_lt_zero _)
  | succ n =>
    intro e he hlength rest hrest
    have hle : e.writeWrapped.length ≤ n := Nat.le_of_lt_succ hlength
    have hread := ReadsOperand.wrapped (readsBack_expressionAt .full n) he hle
    exact hread.reads hle (Nat.zero_le 6) rest hrest

theorem skip_symbol {x : String} (h : isSymbol x = true) (rest : List Char) :
    skip (x.toList ++ rest) = x.toList ++ rest := by
  obtain ⟨c, cs, hx, hc, -⟩ := exists_of_isSymbol h
  rw [hx]
  exact Text.skip_cons (isSolid_of_isWordStart hc) _

theorem skip_writeWrapped (e : Expr) (rest : List Char) :
    skip (e.writeWrapped ++ rest) = e.writeWrapped ++ rest := rfl

theorem expectBlank_space (after : String) (rest : List Char) :
    expectBlank after (' ' :: rest) = .ok (skip rest) := rfl

/-! ## Keywords -/

theorem isSymbol_text (k : Keyword) : isSymbol k.text = true := by
  cases k with
  | perform verb => cases verb <;> decide
  | _ => decide

theorem ofText?_text (k : Keyword) : Keyword.ofText? k.text = some k := by
  cases k with
  | perform verb => cases verb <;> decide
  | _ => decide

/-- What may follow a keyword and a space, so that they do not start an assignment. -/
def entersStatement (c : Char) : Bool := isSolid c && c != ',' && c != '='

theorem entersStatement_of_startsExpr {c : Char} (h : startsExpr c = true) :
    entersStatement c = true := by
  have hne (d : Char) (hd : startsExpr d = false) : c ≠ d := Text.ne_of_true_of_false h hd
  simp [entersStatement, isSolid_of_startsExpr h, hne ',' (by decide), hne '=' (by decide)]

theorem keyword?_text (k : Keyword) {c : Char} (hc : entersStatement c = true)
    (rest : List Char) :
    keyword? (k.text.toList ++ ' ' :: c :: rest) = some (k, ' ' :: c :: rest) := by
  simp only [entersStatement, isSolid, Bool.and_eq_true, Bool.not_eq_true', bne_iff_ne] at hc
  obtain ⟨⟨⟨hblank, -⟩, hcomma⟩, hassign⟩ := hc
  have hskip : Text.skipBlanks (' ' :: c :: rest) = c :: rest := by
    rw [Text.skipBlanks, List.dropWhile_cons_of_pos rfl,
      List.dropWhile_cons_of_neg (by simp [hblank])]
  have hassigns : assigns (' ' :: c :: rest) = false := by
    rw [assigns, hskip, eatAssign?, eat?_ne hcomma, eat?_ne hassign]
    rfl
  have hword := @word?_append _ (isSymbol_text k) (' ' :: c :: rest) rfl
  simp [keyword?, hword, ofText?_text, hassigns]

section

variable {expr : Reader Expr} {statement : Reader Statement} {n : Nat}

theorem oneStatement_keyword (k : Keyword) {c : Char} (hc : entersStatement c = true)
    (rest : List Char) :
    oneStatement expr statement n (k.text.toList ++ ' ' :: c :: rest) =
      keyworded expr statement n k (' ' :: c :: rest) := by
  have hscheme : eat? '#' (k.text.toList ++ ' ' :: c :: rest) = none := by
    cases k with
    | perform verb => cases verb <;> rfl
    | _ => rfl
  rw [oneStatement, hscheme, keyword?_text k hc]

/-! ## Forms with blocks -/

theorem skip_blockText (lines rest : List Char) :
    skip (blockText lines ++ rest) = blockText lines ++ rest := rfl

theorem plain_of_scheme {choice : Fork Statement} (h : choice.scheme = none) :
    Fork.plain choice.branches = choice := by
  obtain ⟨scheme, bs⟩ := choice
  cases h
  rfl

/-- The data of a fork is read back, up to the word that it stands in front of. -/
theorem oneStatement_schemed (hexpr : ReadsBack .full expr n) {fields : List (String × Expr)}
    (hfields : Expr.PlainFields fields) (hlength : (schemeText (some fields)).length ≤ n)
    {text : List Char} (hskip : skip text = text) :
    oneStatement expr statement (n + 1) (schemeText (some fields) ++ text) =
      schemed expr statement (n + 1) fields text := by
  have htext : schemeText (some fields) ++ text =
      '#' :: '{' :: (joined (Expr.writeFields .full fields) ++ '}' :: ' ' :: text) := by
    simp [schemeText]
  have hshort : (joined (Expr.writeFields .full fields)).length < n := by
    simp only [schemeText, List.length_append, List.length_cons] at hlength
    omega
  have hobject := object_write hexpr hfields hshort (' ' :: text)
  rw [htext, oneStatement, eat?_self]
  simp only [hobject, ok_bind, Text.skip_space, hskip]

/-- A fork is read back from a block of branches. -/
theorem oneStatement_fork (hexpr : ReadsBack .full expr n)
    {scheme : Option (List (String × Expr))} (hscheme : ∀ fields ∈ scheme, Expr.PlainFields fields)
    (hlength : (schemeText scheme).length ≤ n) {lines rest : List Char}
    {bs : List (Branch Statement)}
    (hread : branches expr statement (n + 1) (blockText lines ++ rest) = .ok (bs, rest)) :
    oneStatement expr statement (n + 1)
        (schemeText scheme ++ (phrase "fork " ++ (blockText lines ++ rest))) =
      .ok (.fork ⟨scheme, bs⟩, rest) := by
  cases scheme with
  | none =>
    have hkeyword : oneStatement expr statement (n + 1)
          (schemeText none ++ (phrase "fork " ++ (blockText lines ++ rest))) =
        keyworded expr statement (n + 1) .fork (' ' :: (blockText lines ++ rest)) :=
      oneStatement_keyword .fork (by decide) _
    rw [hkeyword, keyworded]
    simp only [Text.skip_space, skip_blockText, hread, ok_bind]
    rfl
  | some fields =>
    have hif : eatWord? "if" (phrase "fork " ++ (blockText lines ++ rest)) = none := rfl
    have hfork : eatWord? "fork" (phrase "fork " ++ (blockText lines ++ rest)) =
        some (' ' :: (blockText lines ++ rest)) := rfl
    rw [oneStatement_schemed hexpr (hscheme fields rfl) hlength rfl, schemed, hif, hfork]
    simp only [Text.skip_space, skip_blockText, hread, ok_bind]

theorem oneStatement_input {result : String} (hresult : isSymbol result = true)
    {lines rest : List Char} {choice : Fork Statement} (hscheme : choice.scheme = none)
    (hread : branches expr statement (n + 1) (blockText lines ++ rest) =
      .ok (choice.branches, rest)) :
    oneStatement expr statement (n + 1)
        (phrase "input -> " ++ (result.toList ++ ' ' :: (blockText lines ++ rest))) =
      .ok (.input result choice, rest) := by
  have hname := @identifier_append _ hresult (' ' :: (blockText lines ++ rest)) rfl
  have hkeyword : oneStatement expr statement (n + 1)
        (phrase "input -> " ++ (result.toList ++ ' ' :: (blockText lines ++ rest))) =
      input expr statement (n + 1)
        (' ' :: '-' :: '>' :: ' ' :: (result.toList ++ ' ' :: (blockText lines ++ rest))) :=
    oneStatement_keyword .input (by decide) _
  have harrow : skip (' ' :: '-' :: '>' :: ' ' ::
        (result.toList ++ ' ' :: (blockText lines ++ rest))) =
      '-' :: '>' :: ' ' :: (result.toList ++ ' ' :: (blockText lines ++ rest)) := rfl
  rw [hkeyword, input]
  simp only [harrow, eatText?, if_true, Text.skip_space, skip_symbol hresult, hname, ok_bind,
    skip_blockText, hread, plain_of_scheme hscheme]

theorem oneStatement_await (hwrapped : ReadsWrapped expr n) {condition : Expr}
    {body : List Statement} {lines rest : List Char} (hcondition : condition.Plain)
    (hlength : condition.writeWrapped.length < n)
    (hblock : block statement (n + 1) (blockText lines ++ rest) = .ok (body, rest)) :
    oneStatement expr statement (n + 1) (phrase "await " ++ (condition.writeWrapped ++
        ' ' :: (blockText lines ++ rest))) =
      .ok (.await condition body, rest) := by
  have hread := hwrapped condition hcondition hlength (' ' :: (blockText lines ++ rest))
    (Ends.brace _ _)
  have hkeyword : oneStatement expr statement (n + 1) (phrase "await " ++
        (condition.writeWrapped ++ ' ' :: (blockText lines ++ rest))) =
      keyworded expr statement (n + 1) .await
        (' ' :: (condition.writeWrapped ++ ' ' :: (blockText lines ++ rest))) :=
    oneStatement_keyword .await (by decide) _
  rw [hkeyword, keyworded]
  simp only [expectBlank_space, skip_writeWrapped, hread, ok_bind, Text.skip_space,
    skip_blockText, hblock]

theorem oneStatement_once {body : List Statement} {lines rest : List Char}
    (hblock : block statement (n + 1) (blockText lines ++ rest) = .ok (body, rest)) :
    oneStatement expr statement (n + 1) (phrase "once " ++ (blockText lines ++ rest)) =
      .ok (.once body, rest) := by
  have hkeyword : oneStatement expr statement (n + 1)
        (phrase "once " ++ (blockText lines ++ rest)) =
      keyworded expr statement (n + 1) .once (' ' :: (blockText lines ++ rest)) :=
    oneStatement_keyword .once (by decide) _
  rw [hkeyword, keyworded]
  simp only [Text.skip_space, skip_blockText, hblock, ok_bind]

theorem oneStatement_define {name : String} {params : List String} {body : List Statement}
    {lines rest : List Char} (hname : isSymbol name = true)
    (hparams : ∀ x ∈ params, isSymbol x = true)
    (hlength : (joined (params.map String.toList)).length ≤ n)
    (hblock : block statement (n + 1) (blockText lines ++ rest) = .ok (body, rest)) :
    oneStatement expr statement (n + 1) (phrase "def " ++ (name.toList ++
        '(' :: (joined (params.map String.toList) ++ ')' :: ' ' :: (blockText lines ++ rest)))) =
      .ok (.define name params body, rest) := by
  have hread (more : List Char) : enclosed ')' identifier (n + 1)
      (joined (params.map String.toList) ++ ')' :: more) = .ok (params, more) := by
    refine enclosed_joined (by decide) (by decide) ?_ ?_ ?_ more
    · intro x hx
      obtain ⟨c, cs, htext, hc, -⟩ := exists_of_isSymbol (hparams x hx)
      have hclose : c ≠ ')' := Text.ne_of_true_of_false hc (by decide)
      exact ⟨c, cs, htext, isSolid_of_isWordStart hc, hclose⟩
    · intro x hx c more hc
      refine identifier_append (hparams x hx) ?_
      rcases hc with rfl | rfl <;> rfl
    · have := length_le_length_joined_add_one (params.map String.toList)
      rw [List.length_map] at this
      omega
  have hdefined := @identifier_append _ hname ('(' :: (joined (params.map String.toList) ++
    ')' :: ' ' :: (blockText lines ++ rest))) rfl
  have hskip := skip_symbol hname ('(' :: (joined (params.map String.toList) ++
    ')' :: ' ' :: (blockText lines ++ rest)))
  have hkeyword (more : List Char) :
      oneStatement expr statement (n + 1) (phrase "def " ++ (name.toList ++ more)) =
        define statement (n + 1) (' ' :: (name.toList ++ more)) := by
    obtain ⟨c, cs, htext, hc, -⟩ := exists_of_isSymbol hname
    have henters : entersStatement c = true :=
      entersStatement_of_startsExpr (startsExpr_of_isWordStart hc)
    rw [htext]
    exact oneStatement_keyword .define henters (cs ++ more)
  rw [hkeyword, define, expectBlank_space, hskip]
  simp only [hdefined, ok_bind, Text.skip_cons (show isSolid '(' = true by decide), expect_self,
    hread, Text.skip_space, skip_blockText, hblock]

/-! ## Chains -/

/-- Reads what follows a clause of a chain: optionally the word `else` and further clauses. -/
def elseClauses (expr : Reader Expr) (statement : Reader Statement) (n k : Nat)
    (first : Branch Statement) : Reader (List (Branch Statement)) := fun text =>
  match eatWord? "else" (skip text) with
  | none => .ok ([first], text)
  | some rest =>
    if (eat? '{' (skip rest)).isSome then do
      let (last, text) ← block statement n (skip rest)
      .ok ([first, ⟨none, last⟩], text)
    else
      match eatWord? "if" (skip rest) with
      | some rest => do
        let (others, text) ← conditional expr statement n k rest
        .ok (first :: others, text)
      | none => fault .expectedBlockAfterElse (skip rest)

/-- A clause with a condition is read back, up to the `else` that may follow. -/
theorem conditional_clause (hwrapped : ReadsWrapped expr n) {e : Expr} {body : List Statement}
    {lines rest : List Char} (he : e.Plain) (hlength : e.writeWrapped.length < n)
    (hblock : block statement (n + 1) (blockText lines ++ rest) = .ok (body, rest)) (k : Nat) :
    conditional expr statement (n + 1) (k + 1)
        (' ' :: (e.writeWrapped ++ ' ' :: (blockText lines ++ rest))) =
      elseClauses expr statement (n + 1) k ⟨some e, body⟩ rest := by
  have hread := hwrapped e he hlength (' ' :: (blockText lines ++ rest)) (Ends.brace _ _)
  rw [conditional, expectBlank_space, skip_writeWrapped, ok_bind]
  simp only [hread, ok_bind, Text.skip_space, skip_blockText, hblock]
  rfl

section

variable {first : Branch Statement} {k : Nat} {rest : List Char}

theorem elseClauses_of_eatWord? (h : eatWord? "else" (skip rest) = none) :
    elseClauses expr statement n k first rest = .ok ([first], rest) := by
  rw [elseClauses, h]

theorem elseClauses_block {lines : List Char} {last : List Statement}
    (h : block statement n (blockText lines ++ rest) = .ok (last, rest)) :
    elseClauses expr statement n k first (phrase " else " ++ (blockText lines ++ rest)) =
      .ok ([first, ⟨none, last⟩], rest) := by
  have helse : eatWord? "else" (skip (phrase " else " ++ (blockText lines ++ rest))) =
      some (' ' :: (blockText lines ++ rest)) := rfl
  have hbrace : (eat? '{' (blockText lines ++ rest)).isSome = true := rfl
  rw [elseClauses, helse]
  simp only [Text.skip_space, skip_blockText, hbrace, if_true, h, ok_bind]

theorem elseClauses_if {text : List Char} {others : List (Branch Statement)}
    (h : conditional expr statement n k (' ' :: text) = .ok (others, rest)) :
    elseClauses expr statement n k first (phrase " else " ++ (phrase "if " ++ text)) =
      .ok (first :: others, rest) := by
  have helse : eatWord? "else" (skip (phrase " else " ++ (phrase "if " ++ text))) =
      some (' ' :: (phrase "if " ++ text)) := rfl
  have hskip : skip (' ' :: (phrase "if " ++ text)) = phrase "if " ++ text := rfl
  have hbrace : eat? '{' (phrase "if " ++ text) = none := rfl
  have hif : eatWord? "if" (phrase "if " ++ text) = some (' ' :: text) := rfl
  rw [elseClauses, helse]
  simp only [hskip, hbrace, hif, Option.isSome_none, Bool.false_eq_true, if_false, h, ok_bind]

end

theorem length_le_length_elseText {bs : List (Branch Statement)} {clauses : List Clause}
    (h : Branch.SpelledEach bs clauses) : bs.length ≤ (Clause.elseText clauses).length := by
  induction bs generalizing clauses with
  | nil => exact Nat.zero_le _
  | cons b bs ih =>
    cases h with
    | cons condition hbody hothers =>
      have hle := ih hothers
      have hphrase : (phrase " else ").length = 6 := rfl
      simp only [Clause.elseText, List.length_append, List.length_cons]
      omega

/-- A chain is read back, after the word `if`, in front of anything but a further `else`. -/
theorem conditional_clauses (hwrapped : ReadsWrapped expr n) (hstatement : ReadsLine statement n)
    {bs : List (Branch Statement)} {clauses : List Clause} {rest : List Char}
    (hclauses : Branch.SpelledEach bs clauses) (hbs : Branch.PlainEach bs)
    (hconditions : ∀ b ∈ bs.dropLast, b.condition.isSome = true)
    (hrest : eatWord? "else" (skip rest) = none) {e : Expr} {body : List Statement}
    {lines : List Char} (he : e.Plain) (hlines : Statement.SpelledLines body lines)
    (hbody : Statement.PlainEach body)
    (hlength : (e.writeWrapped ++ ' ' :: (blockText lines ++ Clause.elseText clauses)).length ≤ n)
    {k : Nat} (hk : bs.length < k) :
    conditional expr statement (n + 1) k (' ' :: (e.writeWrapped ++
        ' ' :: (blockText lines ++ (Clause.elseText clauses ++ rest)))) =
      .ok (⟨some e, body⟩ :: bs, rest) := by
  induction bs generalizing clauses e body lines k with
  | nil =>
    obtain ⟨k, rfl⟩ : ∃ j, k = j + 1 := ⟨k - 1, by omega⟩
    simp only [List.length_append, List.length_cons] at hlength
    cases hclauses
    have hblock := block_spelledLines hstatement hlines hbody (by omega) rest
    rw [Clause.elseText, List.nil_append, conditional_clause hwrapped he (by omega) hblock]
    exact elseClauses_of_eatWord? hrest
  | cons b bs ih =>
    obtain ⟨k, rfl⟩ : ∃ j, k = j + 1 := ⟨k - 1, by omega⟩
    simp only [List.length_append, List.length_cons] at hlength hk
    have hblock := block_spelledLines hstatement hlines hbody (by omega)
      (Clause.elseText clauses ++ rest)
    rw [conditional_clause hwrapped he (by omega) hblock]
    cases hclauses with
    | @cons condition body' lines' _ clauses hlines' hclauses =>
      obtain ⟨hcondition, hbody', hothers⟩ := hbs
      simp only [Clause.elseText, List.length_append] at hlength
      cases condition with
      | none =>
        -- only the last branch can lack a condition
        have hlast : bs = [] := by
          cases bs with
          | nil => rfl
          | cons next bs => cases hconditions _ List.mem_cons_self
        subst hlast
        cases hclauses
        have htext : Clause.elseText [⟨none, lines'⟩] ++ rest =
            phrase " else " ++ (blockText lines' ++ rest) := by
          simp [Clause.elseText, Clause.text]
        simp only [Clause.text] at hlength
        rw [htext]
        exact elseClauses_block (block_spelledLines hstatement hlines' hbody' (by omega) rest)
      | some e' =>
        have htext : Clause.elseText (⟨some e', lines'⟩ :: clauses) ++ rest =
            phrase " else " ++ (phrase "if " ++ (e'.writeWrapped ++
              ' ' :: (blockText lines' ++ (Clause.elseText clauses ++ rest)))) := by
          simp [Clause.elseText, Clause.text]
        have hconditions' : ∀ b ∈ bs.dropLast, b.condition.isSome = true := by
          intro b hb
          apply hconditions
          cases bs with
          | nil => cases hb
          | cons next bs => exact List.mem_cons_of_mem _ hb
        simp only [Clause.text, List.length_append, List.length_cons] at hlength
        rw [htext]
        apply elseClauses_if
        exact ih hclauses hothers hconditions' (hcondition e' rfl) hlines' hbody'
          (by simp only [List.length_append, List.length_cons]; omega)
          (Nat.lt_of_succ_lt_succ hk)

/-- A fork is read back from a chain, in front of anything but a further `else`. -/
theorem oneStatement_chain (hexpr : ReadsBack .full expr n) (hwrapped : ReadsWrapped expr n)
    (hstatement : ReadsLine statement n) {scheme : Option (List (String × Expr))}
    (hscheme : ∀ fields ∈ scheme, Expr.PlainFields fields) {bs : List (Branch Statement)}
    {clauses : List Clause} {rest : List Char} (hchained : Branch.Chained bs)
    (hclauses : Branch.SpelledEach bs clauses) (hbs : Branch.PlainEach bs)
    (hlength : (schemeText scheme ++ Clause.chainText clauses).length ≤ n)
    (hrest : eatWord? "else" (skip rest) = none) :
    oneStatement expr statement (n + 1)
        (schemeText scheme ++ (Clause.chainText clauses ++ rest)) =
      .ok (.fork ⟨scheme, bs⟩, rest) := by
  cases hclauses with
  | nil => exact hchained.elim
  | @cons condition body lines bs clauses hlines hclauses =>
    obtain ⟨hcondition, hbody, hothers⟩ := hbs
    obtain ⟨e, rfl⟩ := Option.isSome_iff_exists.1 hchained.1
    have htext : Clause.chainText (⟨some e, lines⟩ :: clauses) ++ rest = phrase "if " ++
        (e.writeWrapped ++ ' ' :: (blockText lines ++ (Clause.elseText clauses ++ rest))) := by
      simp [Clause.chainText, Clause.text]
    simp only [Clause.chainText, Clause.text, List.length_append, List.length_cons] at hlength
    have hcount := length_le_length_elseText hclauses
    have hread := conditional_clauses hwrapped hstatement hclauses hothers hchained.2 hrest
      (hcondition e rfl) hlines hbody (by simp only [List.length_append, List.length_cons]; omega)
      (by omega : bs.length < n + 1)
    rw [htext]
    cases scheme with
    | none =>
      have hkeyword (text : List Char) :
          oneStatement expr statement (n + 1)
              (schemeText none ++ (phrase "if " ++ (e.writeWrapped ++ text))) =
            keyworded expr statement (n + 1) .condition (' ' :: (e.writeWrapped ++ text)) :=
        oneStatement_keyword .condition (by decide) _
      rw [hkeyword, keyworded, hread]
      rfl
    | some fields =>
      have hif (text : List Char) : eatWord? "if" (phrase "if " ++ text) = some (' ' :: text) := rfl
      rw [oneStatement_schemed hexpr (hscheme fields rfl) (by omega) rfl, schemed, hif]
      simp only [hread, ok_bind]

/-! ## Verbs and assignments -/

theorem oneStatement_perform (hwrapped : ReadsWrapped expr n) (verb : Verb) {value : Expr}
    (hvalue : value.Plain) (hlength : value.writeWrapped.length < n) {more : List Char}
    (hmore : LineStart more) :
    oneStatement expr statement (n + 1)
        (verb.text.toList ++ ' ' :: (value.writeWrapped ++ '\n' :: more)) =
      .ok (.perform verb value, '\n' :: more) := by
  have hread := hwrapped value hvalue hlength _ (hmore.ends Operator.levels)
  have hkeyword : oneStatement expr statement (n + 1)
        (verb.text.toList ++ ' ' :: (value.writeWrapped ++ '\n' :: more)) =
      keyworded expr statement (n + 1) (.perform verb)
        (' ' :: (value.writeWrapped ++ '\n' :: more)) :=
    oneStatement_keyword (.perform verb) (by decide) _
  rw [hkeyword, keyworded]
  simp only [expectBlank_space, skip_writeWrapped, ok_bind, hread]

theorem targets_space (k : Nat) (rest : List Char) :
    targets expr (k + 1) (' ' :: rest) = targets expr (k + 1) rest := by
  rw [targets, targets, Text.skip_space]

theorem Ends.assign (levels : List (List Operator)) (rest : List Char) :
    Ends levels (' ' :: '=' :: ' ' :: rest) :=
  Ends.blank (Or.inl rfl) fun level _ => operator?_eq_none (fun op => by cases op <;> rfl) level

theorem targets_joined (hwrapped : ReadsWrapped expr n) {es : List Expr} (hne : es ≠ [])
    (hes : ∀ e ∈ es, e.Plain) (hlength : ∀ e ∈ es, e.writeWrapped.length < n) {k : Nat}
    (hk : es.length ≤ k) (rest : List Char) :
    targets expr k (joined (es.map Expr.writeWrapped) ++ ' ' :: '=' :: ' ' :: rest) =
      .ok (es, '=' :: ' ' :: rest) := by
  induction es generalizing k with
  | nil => exact absurd rfl hne
  | cons e es ih =>
    have hread := hwrapped e (hes e List.mem_cons_self) (hlength e List.mem_cons_self)
    obtain ⟨k, rfl⟩ : ∃ j, k = j + 1 := ⟨k - 1, by rw [List.length_cons] at hk; omega⟩
    cases es with
    | nil =>
      rw [List.map_singleton, joined, targets, skip_writeWrapped,
        hread _ (Ends.assign Operator.levels rest), ok_bind]
      rfl
    | cons next others =>
      obtain ⟨k, rfl⟩ : ∃ j, k = j + 1 := ⟨k - 1, by simp only [List.length_cons] at hk; omega⟩
      have hothers := ih (List.cons_ne_nil next others)
        (fun x hx => hes x (List.mem_cons_of_mem e hx))
        (fun x hx => hlength x (List.mem_cons_of_mem e hx))
        (by simp only [List.length_cons] at hk ⊢; omega : (next :: others).length ≤ k + 1)
      have htext : joined ((e :: next :: others).map Expr.writeWrapped) ++
          ' ' :: '=' :: ' ' :: rest = e.writeWrapped ++ ',' :: ' ' ::
            (joined ((next :: others).map Expr.writeWrapped) ++ ' ' :: '=' :: ' ' :: rest) := by
        simp [joined_cons_cons]
      rw [htext, targets, skip_writeWrapped, hread _ (Ends.closing (by simp) _), ok_bind]
      simp only [Text.skip_cons (show isSolid ',' = true by decide), eat?_self, targets_space,
        hothers, ok_bind]

theorem oneStatement_set (hwrapped : ReadsWrapped expr n) {target : Target} {value : Expr}
    (htarget : target.Plain) (hvalue : value.Plain)
    (hlength : (Statement.set target value).write.length ≤ n) {more : List Char}
    (hmore : LineStart more) :
    oneStatement expr statement (n + 1) (target.write ++
        ' ' :: '=' :: ' ' :: (value.writeWrapped ++ '\n' :: more)) =
      .ok (.set target value, '\n' :: more) := by
  have hne := elements_ne_nil htarget
  have hlengths : target.write.length + value.writeWrapped.length < n := by
    simp only [Statement.write, phrase, List.length_append] at hlength
    have hequals : " = ".toList.length = 3 := rfl
    omega
  have hshort : ∀ e ∈ target.elements, e.writeWrapped.length < n := by
    intro e he
    have hle := length_le_length_joined (List.mem_map_of_mem he (f := Expr.writeWrapped))
    rw [← Target.write] at hle
    omega
  have hcount : target.elements.length ≤ n + 1 := by
    have hle := length_le_length_joined_add_one (target.elements.map Expr.writeWrapped)
    rw [← Target.write, List.length_map] at hle
    omega
  have hread := targets_joined hwrapped hne (Target.plain_elements htarget) hshort hcount
    (value.writeWrapped ++ '\n' :: more)
  have hassign (rest : List Char) : eatAssign? ('=' :: ' ' :: rest) = some (' ' :: rest) := rfl
  have hassigned := hwrapped value hvalue (by omega) _ (hmore.ends Operator.levels)
  -- No keyword and no scheme starts with a parenthesis.
  have hassignment (rest : List Char) : oneStatement expr statement (n + 1) (target.write ++ rest) =
      assignment expr (n + 1) (target.write ++ rest) := by
    obtain ⟨cs, htext⟩ := exists_joined_writeWrapped hne
    rw [Target.write, htext]
    rfl
  rw [hassignment, assignment, Target.write, hread, ok_bind]
  simp only [hassign, Text.skip_space, skip_writeWrapped, hassigned, ok_bind,
    Target.ofElements_elements htarget]

/-! ## Other programs and modules -/

/-- Reads what follows the start of another program: optionally a result and branches. -/
def runResult (expr : Reader Expr) (statement : Reader Statement) (n : Nat) (name : Expr)
    (args : List Expr) : Reader Statement := fun text =>
  match eatText? ['-', '>'] (skip text) with
  | none => .ok (.run name args none none, text)
  | some rest => do
    let (result, text) ← identifier (skip rest)
    if (eat? '{' (skip text)).isSome then do
      let (found, text) ← branches expr statement n (skip text)
      .ok (.run name args (some result) (some (.plain found)), text)
    else .ok (.run name args (some result) none, text)

/-- The start of another program is read back, up to the result that may follow. -/
theorem oneStatement_callText (hexpr : ReadsBack .full expr n) (hwrapped : ReadsWrapped expr n)
    {name : Expr} {args : List Expr} (hname : name.Plain) (hargs : Expr.PlainEach args)
    (hlength : (callText name args).length ≤ n) (rest : List Char) :
    oneStatement expr statement (n + 1) (callText name args ++ rest) =
      runResult expr statement (n + 1) name args rest := by
  have htext : callText name args ++ rest = phrase "run " ++ (name.writeWrapped ++
      ' ' :: '(' :: (joined (Expr.writeEach .full args) ++ ')' :: rest)) := by
    simp [callText]
  have hlengths : name.writeWrapped.length < n ∧
      (joined (Expr.writeEach .full args)).length < n := by
    simp only [callText, List.length_append, List.length_cons] at hlength
    omega
  have hread := hwrapped name hname hlengths.1
    (' ' :: '(' :: (joined (Expr.writeEach .full args) ++ ')' :: rest))
    (Ends.blank (Or.inl rfl) fun level _ => operator?_cons (by decide) level _)
  have henclosed := enclosed_write hexpr (Or.inl rfl) hargs hlengths.2 rest
  have hkeyword (more : List Char) :
      oneStatement expr statement (n + 1) (phrase "run " ++ (name.writeWrapped ++ more)) =
        run expr statement (n + 1) (' ' :: (name.writeWrapped ++ more)) :=
    oneStatement_keyword .run (by decide) _
  rw [htext, hkeyword, run, Text.skip_space, skip_writeWrapped, hread, ok_bind]
  simp only [runArguments, Text.skip_space, Text.skip_cons (show isSolid '(' = true by decide),
    eat?_self, henclosed, ok_bind]
  rfl

/-- The result of another program is found after its arrow. -/
theorem eatText?_resultText (x : String) (rest : List Char) :
    eatText? ['-', '>'] (skip (resultText (some x) ++ rest)) =
      some (' ' :: (x.toList ++ rest)) := rfl

theorem oneStatement_run (hexpr : ReadsBack .full expr n) (hwrapped : ReadsWrapped expr n)
    {name : Expr} {args : List Expr} {result : Option String} (hname : name.Plain)
    (hargs : Expr.PlainEach args) (hresult : ∀ x ∈ result, isSymbol x = true)
    (hlength : (callText name args).length ≤ n) {more : List Char} (hmore : LineStart more) :
    oneStatement expr statement (n + 1)
        (callText name args ++ (resultText result ++ '\n' :: more)) =
      .ok (.run name args result none, '\n' :: more) := by
  rw [oneStatement_callText hexpr hwrapped hname hargs hlength, runResult]
  cases result with
  | none =>
    rw [resultText, List.nil_append, Text.skip_newline, hmore.skip_eq, hmore.arrow]
  | some x =>
    have hx := hresult x rfl
    have hidentifier := @identifier_append _ hx ('\n' :: more) rfl
    rw [eatText?_resultText]
    simp only [Text.skip_space, skip_symbol hx, hidentifier, ok_bind, Text.skip_newline,
      hmore.skip_eq, hmore.brace, Option.isSome_none, Bool.false_eq_true, if_false]

theorem oneStatement_runBranches (hexpr : ReadsBack .full expr n)
    (hwrapped : ReadsWrapped expr n) {name : Expr} {args : List Expr} {x : String}
    {choice : Fork Statement} {lines rest : List Char} (hname : name.Plain)
    (hargs : Expr.PlainEach args) (hx : isSymbol x = true)
    (hlength : (callText name args).length ≤ n) (hscheme : choice.scheme = none)
    (hread : branches expr statement (n + 1) (blockText lines ++ rest) =
      .ok (choice.branches, rest)) :
    oneStatement expr statement (n + 1)
        (callText name args ++ (resultText (some x) ++ ' ' :: (blockText lines ++ rest))) =
      .ok (.run name args (some x) (some choice), rest) := by
  have hidentifier := @identifier_append _ hx (' ' :: (blockText lines ++ rest)) rfl
  have hbrace : (eat? '{' (blockText lines ++ rest)).isSome = true := rfl
  rw [oneStatement_callText hexpr hwrapped hname hargs hlength, runResult, eatText?_resultText]
  simp only [Text.skip_space, skip_symbol hx, hidentifier, ok_bind, skip_blockText, hbrace,
    if_true, hread, plain_of_scheme hscheme]

theorem imports_space (k : Nat) (rest : List Char) :
    imports (k + 1) (' ' :: rest) = imports (k + 1) rest := by
  rw [imports, imports, Text.skip_space]

theorem imports_joined {xs : List String} (hne : xs ≠ []) (hxs : ∀ x ∈ xs, isSymbol x = true)
    {k : Nat} (hk : xs.length ≤ k) {more : List Char} (hmore : LineStart more) :
    imports k (joined (xs.map String.toList) ++ '\n' :: more) = .ok (xs, '\n' :: more) := by
  induction xs generalizing k with
  | nil => exact absurd rfl hne
  | cons x xs ih =>
    have hx := hxs x List.mem_cons_self
    obtain ⟨k, rfl⟩ : ∃ j, k = j + 1 := ⟨k - 1, by rw [List.length_cons] at hk; omega⟩
    cases xs with
    | nil =>
      have hread := @identifier_append _ hx ('\n' :: more) rfl
      rw [List.map_singleton, joined, imports, skip_symbol hx, hread, ok_bind]
      simp only [Text.skip_newline, hmore.skip_eq, hmore.comma]
    | cons next others =>
      obtain ⟨k, rfl⟩ : ∃ j, k = j + 1 := ⟨k - 1, by simp only [List.length_cons] at hk; omega⟩
      have hothers := ih (List.cons_ne_nil next others)
        (fun y hy => hxs y (List.mem_cons_of_mem x hy))
        (by simp only [List.length_cons] at hk ⊢; omega : (next :: others).length ≤ k + 1)
      have htext : joined ((x :: next :: others).map String.toList) ++ '\n' :: more =
          x.toList ++ ',' :: ' ' ::
            (joined ((next :: others).map String.toList) ++ '\n' :: more) := by
        simp [joined_cons_cons]
      have hread := @identifier_append _ hx (',' :: ' ' ::
        (joined ((next :: others).map String.toList) ++ '\n' :: more)) rfl
      rw [htext, imports, skip_symbol hx, hread, ok_bind]
      simp only [Text.skip_cons (show isSolid ',' = true by decide), eat?_self, imports_space,
        hothers, ok_bind]

theorem exists_names {values : List Literal} (h : ∀ value ∈ values, value.IsImport) :
    ∃ xs : List String, values = xs.map Literal.string ∧ ∀ x ∈ xs, isSymbol x = true := by
  induction values with
  | nil => exact ⟨[], rfl, by simp⟩
  | cons value values ih =>
    obtain ⟨x, rfl, hx⟩ := h value List.mem_cons_self
    obtain ⟨xs, rfl, hxs⟩ := ih fun other hother => h other (List.mem_cons_of_mem _ hother)
    exact ⟨x :: xs, rfl, by simpa using ⟨hx, hxs⟩⟩

theorem oneStatement_use {source : String} {values : List Literal} (hne : values ≠ [])
    (hvalues : ∀ value ∈ values, value.IsImport)
    (hlength : (joined (values.map importText)).length ≤ n) {more : List Char}
    (hmore : LineStart more) :
    oneStatement expr statement (n + 1) (phrase "use " ++ (stringText source ++
        (phrase " import " ++ (joined (values.map importText) ++ '\n' :: more)))) =
      .ok (.use (.literal (.string source)) values, '\n' :: more) := by
  obtain ⟨xs, rfl, hxs⟩ := exists_names hvalues
  have htexts : (xs.map Literal.string).map importText = xs.map String.toList := by
    rw [List.map_map]
    rfl
  rw [htexts] at hlength ⊢
  have hcount : xs.length ≤ n + 1 := by
    have hle := length_le_length_joined_add_one (xs.map String.toList)
    rw [List.length_map] at hle
    omega
  have hread := imports_joined (fun hnil => hne (by rw [hnil]; rfl)) hxs hcount hmore
  have hsource (rest : List Char) : string (stringText source ++ rest) = .ok (source, rest) :=
    string_append source rest
  have hquote (rest : List Char) : (eat? '"' (stringText source ++ rest)).isSome = true := rfl
  have hskip (rest : List Char) : skip (stringText source ++ rest) = stringText source ++ rest :=
    rfl
  have hblank (rest : List Char) : expectBlank "module name" (phrase " import " ++ rest) =
      .ok (phrase "import " ++ rest) := rfl
  have hword (rest : List Char) :
      expectWord "import" (phrase "import " ++ rest) = .ok (' ' :: rest) := rfl
  have hkeyword (rest : List Char) :
      oneStatement expr statement (n + 1) (phrase "use " ++ (stringText source ++ rest)) =
        use (n + 1) (' ' :: (stringText source ++ rest)) :=
    oneStatement_keyword .use (by decide) _
  rw [hkeyword, use, expectBlank_space, hskip, ok_bind]
  simp only [hquote, if_true, hsource, hblank, hword, ok_bind, imports_space, hread]

/-! ## All forms -/

theorem oneStatement_simple (hexpr : ReadsBack .full expr n) (hwrapped : ReadsWrapped expr n)
    {s : Statement} (hsimple : s.IsSimple) (hs : s.Plain) (hlength : s.write.length ≤ n)
    {more : List Char} (hmore : LineStart more) :
    oneStatement expr statement (n + 1) (s.write ++ '\n' :: more) = .ok (s, '\n' :: more) := by
  cases s with
  | perform verb value =>
    simp only [Statement.write, List.length_append, List.length_cons] at hlength
    rw [Statement.write, List.append_assoc, List.cons_append]
    exact oneStatement_perform hwrapped verb hs (by omega) hmore
  | set target value =>
    rw [Statement.write, List.append_assoc]
    exact oneStatement_set hwrapped hs.1 hs.2 hlength hmore
  | run name args result choice =>
    cases choice with
    | none =>
      rw [Statement.write, List.length_append] at hlength
      rw [Statement.write, List.append_assoc]
      exact oneStatement_run hexpr hwrapped hs.1 hs.2.1 hs.2.2 (by omega) hmore
    | some choice => exact hsimple.elim
  | use name values =>
    obtain ⟨⟨source, rfl⟩, hne, hvalues⟩ := hs
    simp only [Statement.write, List.length_append] at hlength
    have hsource : (Expr.literal (.string source)).write .full = stringText source := rfl
    simp only [Statement.write, hsource, List.append_assoc]
    exact oneStatement_use hne hvalues (by omega) hmore
  | _ => exact hsimple.elim

/-- Every statement is read back from each of its texts, in front of the next line. -/
theorem oneStatement_spelled (hexpr : ReadsBack .full expr n) (hwrapped : ReadsWrapped expr n)
    (hstatement : ReadsLine statement n) {s : Statement} {text : List Char} (h : s.Spelled text)
    (hs : s.Plain) (hlength : text.length ≤ n) {more : List Char} (hmore : LineStart more) :
    oneStatement expr statement (n + 1) (text ++ '\n' :: more) = .ok (s, '\n' :: more) := by
  cases h with
  | simple hsimple => exact oneStatement_simple hexpr hwrapped hsimple hs hlength hmore
  | fork scheme hclauses =>
    have hscheme : ∀ fields ∈ scheme, Expr.PlainFields fields := hs.1
    simp only [List.length_append] at hlength
    simp only [List.append_assoc]
    exact oneStatement_fork hexpr hscheme (by omega)
      (branches_forkLines hwrapped hstatement hclauses hs.2 (by omega) _)
  | chain scheme hchained hclauses =>
    have hrest : eatWord? "else" (skip ('\n' :: more)) = none := by
      rw [Text.skip_newline, hmore.skip_eq]
      exact hmore.noElse
    rw [List.append_assoc]
    exact oneStatement_chain hexpr hwrapped hstatement hs.1 hchained hclauses hs.2 hlength hrest
  | input result scheme hclauses =>
    obtain ⟨hresult, hscheme, hbranches⟩ := hs
    simp only [List.length_append, List.length_cons] at hlength
    simp only [List.append_assoc, List.cons_append]
    exact oneStatement_input hresult hscheme
      (branches_forkLines hwrapped hstatement hclauses hbranches (by omega) _)
  | await condition hlines =>
    have hphrase : (phrase "await ").length = 6 := rfl
    simp only [List.length_append, List.length_cons] at hlength
    simp only [List.append_assoc, List.cons_append]
    exact oneStatement_await hwrapped hs.1 (by omega)
      (block_spelledLines hstatement hlines hs.2 (by omega) _)
  | once hlines =>
    simp only [List.length_append] at hlength
    rw [List.append_assoc]
    exact oneStatement_once (block_spelledLines hstatement hlines hs (by omega) _)
  | run name args result scheme hclauses =>
    obtain ⟨hname, hargs, ⟨x, rfl, hx⟩, hscheme, hbranches⟩ := hs
    simp only [List.length_append, List.length_cons] at hlength
    simp only [List.append_assoc, List.cons_append]
    exact oneStatement_runBranches hexpr hwrapped hname hargs hx (by omega) hscheme
      (branches_forkLines hwrapped hstatement hclauses hbranches (by omega) _)
  | define name params hlines =>
    obtain ⟨hname, hparams, hbody⟩ := hs
    simp only [List.length_append, List.length_cons] at hlength
    simp only [List.append_assoc, List.cons_append]
    exact oneStatement_define hname hparams (by omega)
      (block_spelledLines hstatement hlines hbody (by omega) _)

end

end Reader

end Dialogue
