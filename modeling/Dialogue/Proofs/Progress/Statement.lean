import Dialogue.Proofs.Progress.Expression
import Dialogue.Proofs.RoundTrip.Statement

/-!
# What statements take from a text

As for expressions, every reader of a form of statement takes at least one character, and what it
makes can be written (`Statement.Plain`). The readers for the expressions and the statements
inside are assumed to do so on shorter texts. The loops over statements and branches may take
nothing, but each of their rounds takes a character.
-/

namespace Dialogue

open Text (skip)

namespace Reader

section

variable {n : Nat} {expr : Reader Expr} {statement : Reader Statement} {text : List Char}

/-! ## Blocks and branches -/

/-- Statements are read one round at a time, and each round takes a character. -/
theorem takes_statements (hstatement : TakesBelow n Statement.Plain statement) {k : Nat}
    (hn : text.length < n) (hk : text.length < k) :
    Takes 0 Statement.PlainEach text (statements statement k text) := by
  induction k generalizing text with
  | zero => omega
  | succ k ih =>
    have hskip := Left.skip text
    have hlength := hskip.length_le
    rw [statements]
    split
    · rename_i hnil
      rw [hnil] at hskip
      exact Takes.ok trivial hskip (by omega)
    · rename_i c rest hcons
      rw [hcons] at hskip hlength
      split
      · exact Takes.ok trivial hskip (by omega)
      · refine Takes.bind hskip (hstatement (c :: rest) (by omega)) ?_
        intro first rest hfirst hrest
        have hless := hrest.length_le
        refine Takes.bind hrest (ih (by omega) (by omega)) ?_
        intro others rest hothers hrest
        exact Takes.ok ⟨hfirst, hothers⟩ hrest (by omega)

theorem takes_block (hstatement : TakesBelow n Statement.Plain statement) {k : Nat}
    (hn : text.length ≤ n) (hk : text.length ≤ k) :
    Takes 1 Statement.PlainEach text (block statement k text) := by
  rw [block]
  refine Takes.expect (Left.refl text) fun rest hrest => ?_
  have hlength := hrest.length_le
  refine Takes.bind hrest (takes_statements hstatement (by omega) (by omega)) ?_
  intro body rest hbody hrest
  refine Takes.expect (hrest.trans (Left.skip rest)) fun rest hrest => ?_
  exact Takes.ok hbody hrest (by omega)

theorem eatDefault?_eq : eatDefault? = eatUnless '_' fun rest => rest.head?.any isWordPart := rfl

theorem takes_condition (hexpr : TakesBelow n Expr.Plain expr) (hn : text.length < n) :
    Takes 1 (fun found => ∀ e ∈ found, e.Plain) text (condition expr text) := by
  rw [condition]
  split
  · rename_i rest heat
    have hrest := (Left.of_eatUnless (eatDefault?_eq ▸ heat)).trans (Left.skip rest)
    split
    · exact Takes.ok (by simp) hrest (by omega)
    · exact Takes.fault hrest (by simp)
  · split
    · exact Takes.fault (Left.refl text) (by simp)
    · refine Takes.bind (Left.refl text) (hexpr text hn) ?_
      intro found rest hfound hrest
      exact Takes.ok (by simpa using hfound) (hrest.trans (Left.skip rest)) (by omega)

theorem takes_branch (hexpr : TakesBelow (n + 1) Expr.Plain expr)
    (hstatement : TakesBelow n Statement.Plain statement) {m : Nat} (hn : text.length ≤ n)
    (hm : text.length ≤ m) :
    Takes 1 (fun branch => Branch.PlainEach [branch]) text (branch expr statement m text) := by
  rw [branch]
  refine Takes.bind (Left.refl text) (takes_condition hexpr (by omega)) ?_
  intro found rest hfound hrest
  have hlength := hrest.length_le
  refine Takes.bind hrest (takes_block hstatement (by omega) (by omega)) ?_
  intro body rest hbody hrest
  exact Takes.ok ⟨hfound, hbody, trivial⟩ hrest (by omega)

/-- A branch in front of others that can be written. -/
theorem plainEach_cons {branch : Branch Statement} {others : List (Branch Statement)}
    (h : Branch.PlainEach [branch]) (hothers : Branch.PlainEach others) :
    Branch.PlainEach (branch :: others) := by
  obtain ⟨condition, body⟩ := branch
  exact ⟨h.1, h.2.1, hothers⟩

/-- Branches are read one round at a time, and each round takes a character. -/
theorem takes_branchList (hexpr : TakesBelow (n + 1) Expr.Plain expr)
    (hstatement : TakesBelow n Statement.Plain statement) {m k : Nat} (hn : text.length ≤ n)
    (hm : text.length ≤ m) (hk : text.length < k) :
    Takes 0 Branch.PlainEach text (branchList expr statement m k text) := by
  induction k generalizing text with
  | zero => omega
  | succ k ih =>
    have hskip := Left.skip text
    have hlength := hskip.length_le
    rw [branchList]
    split
    · rename_i hnil
      rw [hnil] at hskip
      exact Takes.ok trivial hskip (by omega)
    · rename_i c rest hcons
      rw [hcons] at hskip hlength
      split
      · exact Takes.ok trivial hskip (by omega)
      · refine Takes.bind hskip (takes_branch hexpr hstatement (by omega) (by omega)) ?_
        intro first rest hfirst hrest
        have hless := hrest.length_le
        refine Takes.bind hrest (ih (by omega) (by omega) (by omega)) ?_
        intro others rest hothers hrest
        exact Takes.ok (plainEach_cons hfirst hothers) hrest (by omega)

theorem takes_branches (hexpr : TakesBelow (n + 1) Expr.Plain expr)
    (hstatement : TakesBelow n Statement.Plain statement) {m : Nat} (hn : text.length ≤ n)
    (hm : text.length ≤ m) : Takes 1 Branch.PlainEach text (branches expr statement m text) := by
  rw [branches]
  refine Takes.expect (Left.refl text) fun rest hrest => ?_
  have hlength := hrest.length_le
  refine Takes.bind hrest (takes_branchList hexpr hstatement (by omega) (by omega) (by omega)) ?_
  intro found rest hfound hrest
  refine Takes.expect hrest fun rest hrest => ?_
  exact Takes.ok hfound hrest (by omega)

/-! ## Forms with blocks -/

/-- The branches of an `if` are read along the words `else if`, and each of them takes a
character. -/
theorem takes_conditional (hexpr : TakesBelow (n + 1) Expr.Plain expr)
    (hstatement : TakesBelow n Statement.Plain statement) {m k : Nat} (hn : text.length ≤ n)
    (hm : text.length ≤ m) (hk : text.length < k) :
    Takes 1 Branch.PlainEach text (conditional expr statement m k text) := by
  induction k generalizing text with
  | zero => omega
  | succ k ih =>
    rw [conditional]
    refine Takes.expectBlank (Left.refl text) fun rest hrest => ?_
    have hlength := hrest.length_le
    refine Takes.bind hrest (hexpr rest (by omega)) ?_
    intro found rest hfound hrest
    have hgap := hrest.trans (Left.skip rest)
    have hless := hgap.length_le
    refine Takes.bind hgap (takes_block hstatement (by omega) (by omega)) ?_
    intro body rest hbody hrest
    have hfirst : Branch.PlainEach [⟨some found, body⟩] := ⟨by simpa using hfound, hbody, trivial⟩
    dsimp only
    split
    · exact Takes.ok hfirst hrest (by omega)
    · rename_i rest' heat
      have hafter := ((hrest.trans (Left.skip rest)).trans (Left.of_eatWord? heat)).trans
        (Left.skip rest')
      have hshort := hafter.length_le
      split
      · refine Takes.bind hafter (takes_block hstatement (by omega) (by omega)) ?_
        intro last rest hlast hrest
        exact Takes.ok (plainEach_cons hfirst ⟨by simp, hlast, trivial⟩) hrest (by omega)
      · split
        · rename_i rest'' heat'
          have hnext := hafter.trans (Left.of_eatWord? heat')
          have hshorter := hnext.length_le
          refine Takes.bind hnext (ih (by omega) (by omega) (by omega)) ?_
          intro others rest hothers hrest
          exact Takes.ok (plainEach_cons hfirst hothers) hrest (by omega)
        · exact Takes.fault hafter (by simp)

theorem takes_schemed (hexpr : TakesBelow (n + 1) Expr.Plain expr)
    (hstatement : TakesBelow n Statement.Plain statement) (hn : text.length ≤ n)
    {scheme : List (String × Expr)} (hscheme : Expr.PlainFields scheme) :
    Takes 1 Statement.Plain text (schemed expr statement (n + 1) scheme text) := by
  have hplain : ∀ fields ∈ some scheme, Expr.PlainFields fields := by simpa using hscheme
  rw [schemed]
  split
  · rename_i rest heat
    have hrest := Left.of_eatWord? heat
    have hlength := hrest.length_le
    refine Takes.bind hrest (takes_conditional hexpr hstatement (by omega) (by omega) (by omega)) ?_
    intro found rest hfound hrest
    exact Takes.ok ⟨hplain, hfound⟩ hrest (by omega)
  · split
    · rename_i rest heat
      have hrest := (Left.of_eatWord? heat).trans (Left.skip rest)
      have hlength := hrest.length_le
      refine Takes.bind hrest (takes_branches hexpr hstatement (by omega) (by omega)) ?_
      intro found rest hfound hrest
      exact Takes.ok ⟨hplain, hfound⟩ hrest (by omega)
    · exact Takes.fault (Left.refl text) (by simp)

theorem takes_input (hexpr : TakesBelow (n + 1) Expr.Plain expr)
    (hstatement : TakesBelow n Statement.Plain statement) (hn : text.length ≤ n) :
    Takes 1 Statement.Plain text (input expr statement (n + 1) text) := by
  have hskip := Left.skip text
  rw [input]
  dsimp only
  split
  · exact Takes.fault hskip (by simp)
  · rename_i rest heat
    have hrest := (hskip.trans (Left.of_append (eatText?_eq_some heat) (by simp))).trans
      (Left.skip rest)
    refine Takes.bind hrest (takes_identifier _) ?_
    intro result rest hresult hrest
    have hgap := hrest.trans (Left.skip rest)
    have hlength := hgap.length_le
    refine Takes.bind hgap (takes_branches hexpr hstatement (by omega) (by omega)) ?_
    intro found rest hfound hrest
    exact Takes.ok ⟨hresult, rfl, hfound⟩ hrest (by omega)

/-! ## Other programs and modules -/

theorem plain_splitCall {name : Expr} (h : name.Plain) :
    (splitCall name).1.Plain ∧ Expr.PlainEach (splitCall name).2 := by
  cases name with
  | call callee args => exact h
  | _ => exact ⟨h, trivial⟩

theorem takes_runArguments (hexpr : TakesBelow n Expr.Plain expr) {m : Nat}
    (hn : text.length < n) (hm : text.length < m) {name : Expr} (hname : name.Plain) :
    Takes 0 (fun call => call.1.Plain ∧ Expr.PlainEach call.2) text
      (runArguments expr m name text) := by
  rw [runArguments]
  split
  · rename_i rest heat
    have hrest := (Left.skip text).trans (Left.of_eat? heat)
    have hlength := hrest.length_le
    refine Takes.bind hrest (takes_enclosed hexpr (by omega) (by omega)) ?_
    intro args rest hargs hrest
    exact Takes.ok ⟨hname, Expr.plainEach_iff.2 hargs⟩ hrest (by omega)
  · exact Takes.ok (plain_splitCall hname) (Left.refl text) (by omega)

theorem takes_run (hexpr : TakesBelow (n + 1) Expr.Plain expr)
    (hstatement : TakesBelow n Statement.Plain statement) (hn : text.length ≤ n) :
    Takes 1 Statement.Plain text (run expr statement (n + 1) text) := by
  have hskip := Left.skip text
  have hlength := hskip.length_le
  rw [run]
  refine Takes.bind hskip (hexpr (skip text) (by omega)) ?_
  intro name rest hname hrest
  have hless := hrest.length_le
  refine Takes.bind hrest (takes_runArguments hexpr (by omega) (by omega) hname) ?_
  rintro ⟨name, args⟩ rest ⟨hname, hargs⟩ hrest
  dsimp only
  split
  · exact Takes.ok ⟨hname, hargs, by simp⟩ hrest (by omega)
  · rename_i after heat
    have hafter := (hrest.trans (Left.skip rest)).trans
      (Left.of_append (eatText?_eq_some heat) (by simp))
    refine Takes.bind (hafter.trans (Left.skip after)) (takes_identifier _) ?_
    intro result rest hresult hrest
    dsimp only
    split
    · have hgap := hrest.trans (Left.skip rest)
      have hshort := hgap.length_le
      refine Takes.bind hgap (takes_branches hexpr hstatement (by omega) (by omega)) ?_
      intro found rest hfound hrest
      exact Takes.ok ⟨hname, hargs, ⟨result, rfl, hresult⟩, rfl, hfound⟩ hrest (by omega)
    · exact Takes.ok ⟨hname, hargs, by simpa using hresult⟩ hrest (by omega)

/-- Imported names are read one round at a time, and each round takes a character. -/
theorem takes_imports {k : Nat} (hk : text.length < k) :
    Takes 1 (fun names => names ≠ [] ∧ ∀ x ∈ names, isSymbol x = true) text (imports k text) := by
  induction k generalizing text with
  | zero => omega
  | succ k ih =>
    rw [imports]
    refine Takes.bind (Left.skip text) (takes_identifier _) ?_
    intro first rest hfirst hrest
    dsimp only
    split
    · rename_i after heat
      have hafter := (hrest.trans (Left.skip rest)).trans (Left.of_eat? heat)
      have hlength := hafter.length_le
      refine Takes.bind hafter (ih (by omega)) ?_
      intro others rest hothers hrest
      exact Takes.ok ⟨List.cons_ne_nil _ _, List.forall_mem_cons.2 ⟨hfirst, hothers.2⟩⟩ hrest
        (by omega)
    · exact Takes.ok ⟨List.cons_ne_nil _ _, List.forall_mem_singleton.2 hfirst⟩ hrest (by omega)

theorem takes_use {m : Nat} (hm : text.length < m) :
    Takes 1 Statement.Plain text (use m text) := by
  rw [use]
  refine Takes.expectBlank (Left.refl text) fun rest hrest => ?_
  split
  · refine Takes.bind hrest (takes_string rest) ?_
    intro source rest _ hrest
    refine Takes.expectBlank hrest fun rest hrest => ?_
    refine Takes.expectWord hrest fun rest hrest => ?_
    have hlength := hrest.length_le
    refine Takes.bind hrest (takes_imports (by omega)) ?_
    rintro names rest ⟨hne, hnames⟩ hrest
    refine Takes.ok ⟨⟨source, rfl⟩, ?_, ?_⟩ hrest (by omega)
    · simpa using hne
    · intro value hvalue
      obtain ⟨x, hx, rfl⟩ := List.mem_map.1 hvalue
      exact ⟨x, rfl, hnames x hx⟩
  · exact Takes.fault hrest (by simp)

theorem takes_define (hstatement : TakesBelow n Statement.Plain statement)
    (hn : text.length ≤ n) : Takes 1 Statement.Plain text (define statement (n + 1) text) := by
  have hidentifier : TakesBelow (n + 1) (fun x => isSymbol x = true) identifier :=
    fun text _ => takes_identifier text
  rw [define]
  refine Takes.expectBlank (Left.refl text) fun rest hrest => ?_
  refine Takes.bind hrest (takes_identifier rest) ?_
  intro name rest hname hrest
  refine Takes.expect (hrest.trans (Left.skip rest)) fun rest hrest => ?_
  have hlength := hrest.length_le
  refine Takes.bind hrest (takes_enclosed hidentifier (by omega) (by omega)) ?_
  intro params rest hparams hrest
  have hgap := hrest.trans (Left.skip rest)
  have hless := hgap.length_le
  refine Takes.bind hgap (takes_block hstatement (by omega) (by omega)) ?_
  intro body rest hbody hrest
  exact Takes.ok ⟨hname, hparams, hbody⟩ hrest (by omega)

/-! ## Assignments -/

/-- Targets are read one round at a time, and each round takes a character. -/
theorem takes_targets (hexpr : TakesBelow n Expr.Plain expr) {k : Nat} (hn : text.length < n)
    (hk : text.length < k) :
    Takes 1 (fun found => found ≠ [] ∧ ∀ e ∈ found, e.Plain) text (targets expr k text) := by
  induction k generalizing text with
  | zero => omega
  | succ k ih =>
    have hskip := Left.skip text
    have hlength := hskip.length_le
    rw [targets]
    refine Takes.bind hskip (hexpr (skip text) (by omega)) ?_
    intro first rest hfirst hrest
    have hgap := hrest.trans (Left.skip rest)
    dsimp only
    split
    · rename_i after heat
      have hafter := hgap.trans (Left.of_eat? heat)
      have hless := hafter.length_le
      refine Takes.bind hafter (ih (by omega) (by omega)) ?_
      intro others rest hothers hrest
      exact Takes.ok ⟨List.cons_ne_nil _ _, List.forall_mem_cons.2 ⟨hfirst, hothers.2⟩⟩ hrest
        (by omega)
    · exact Takes.ok ⟨List.cons_ne_nil _ _, List.forall_mem_singleton.2 hfirst⟩ hgap (by omega)

theorem eatAssign?_eq : eatAssign? = eatUnless '=' fun rest => (eat? '=' rest).isSome := rfl

/-- The root and the keys of a chain of indexings can be written if the chain can. -/
theorem unindexBefore_plain {e : Expr} (he : e.Plain) {keys : List Expr}
    (hkeys : ∀ key ∈ keys, key.Plain) :
    (e.unindexBefore keys).1.Plain ∧ ∀ key ∈ (e.unindexBefore keys).2, key.Plain := by
  fun_induction Expr.unindexBefore keys e with
  | case1 keys target property ih => exact ih he.1 (List.forall_mem_cons.2 ⟨he.2, hkeys⟩)
  | case2 keys e hmember => exact ⟨he, hkeys⟩

theorem plain_ofElements {elements : List Expr} (hne : elements ≠ [])
    (helements : ∀ e ∈ elements, e.Plain) : (Target.ofElements elements).Plain := by
  by_cases hmember : ∃ e, elements = [e] ∧ e.isMember = true
  · obtain ⟨e, rfl, he⟩ := hmember
    rw [Target.ofElements_member he]
    cases e with
    | member target property =>
      obtain ⟨hroot, hne⟩ := Expr.unindex_member target property
      exact ⟨hne, hroot, unindexBefore_plain (helements _ (List.mem_singleton.2 rfl)) nofun⟩
    | _ => cases he
  · have hsingle : ∀ e, elements = [e] → e.isMember = false := by
      intro e heq
      exact Bool.eq_false_iff.2 fun he => hmember ⟨e, heq, he⟩
    rw [Target.ofElements_list hsingle]
    exact ⟨hne, hsingle, helements⟩

theorem takes_assignment (hexpr : TakesBelow n Expr.Plain expr) {m : Nat} (hn : text.length < n)
    (hm : text.length < m) : Takes 1 Statement.Plain text (assignment expr m text) := by
  rw [assignment]
  refine Takes.bind (Left.refl text) (takes_targets hexpr hn hm) ?_
  rintro elements rest ⟨hne, helements⟩ hrest
  dsimp only
  split
  · exact Takes.fault hrest (by simp)
  · rename_i after heat
    have hvalue := (hrest.trans (Left.of_eatUnless (eatAssign?_eq ▸ heat))).trans (Left.skip after)
    have hlength := hvalue.length_le
    refine Takes.bind hvalue (hexpr (skip after) (by omega)) ?_
    intro value rest hplain hrest
    exact Takes.ok ⟨plain_ofElements hne helements, hplain⟩ hrest (by omega)

/-! ## All forms -/

theorem keyword_of_ofText? {word : String} {keyword : Keyword}
    (h : Keyword.ofText? word = some keyword) : keyword.text = word := by
  simpa using List.find?_some h

theorem word?_of_keyword? {keyword : Keyword} {rest : List Char}
    (h : keyword? text = some (keyword, rest)) : word? text = some (keyword.text, rest) := by
  rw [keyword?] at h
  cases hword : word? text with
  | none => simp [hword] at h
  | some found =>
    obtain ⟨word, more⟩ := found
    cases hkeyword : Keyword.ofText? word with
    | none => simp [hword, hkeyword] at h
    | some found =>
      simp only [hword, hkeyword, Option.bind_eq_bind, Option.bind_some] at h
      split at h
      · cases h
      · obtain ⟨rfl, rfl⟩ := Prod.mk.inj (Option.some.inj h)
        rw [keyword_of_ofText? hkeyword]

theorem eatWord?_of_keyword? {keyword : Keyword} {rest : List Char}
    (h : keyword? text = some (keyword, rest)) : eatWord? keyword.text text = some rest := by
  rw [eatWord?, word?_of_keyword? h]
  exact if_pos rfl

theorem Left.of_keyword? {keyword : Keyword} {rest : List Char}
    (h : keyword? text = some (keyword, rest)) : Left 1 text rest :=
  Left.of_word? (word?_of_keyword? h)

theorem takes_keyworded (hexpr : TakesBelow (n + 1) Expr.Plain expr)
    (hstatement : TakesBelow n Statement.Plain statement) (hn : text.length ≤ n)
    (keyword : Keyword) :
    Takes 1 Statement.Plain text (keyworded expr statement (n + 1) keyword text) := by
  have hnone : ∀ fields ∈ (none : Option (List (String × Expr))), Expr.PlainFields fields := by
    simp
  cases keyword with
  | condition =>
    rw [keyworded]
    refine Takes.bind (Left.refl text)
      (takes_conditional hexpr hstatement hn (by omega) (by omega)) ?_
    intro found rest hfound hrest
    exact Takes.ok ⟨hnone, hfound⟩ hrest (by omega)
  | fork =>
    have hskip := Left.skip text
    have hlength := hskip.length_le
    rw [keyworded]
    refine Takes.bind hskip (takes_branches hexpr hstatement (by omega) (by omega)) ?_
    intro found rest hfound hrest
    exact Takes.ok ⟨hnone, hfound⟩ hrest (by omega)
  | input => exact takes_input hexpr hstatement hn
  | await =>
    rw [keyworded]
    refine Takes.expectBlank (Left.refl text) fun rest hrest => ?_
    have hlength := hrest.length_le
    refine Takes.bind hrest (hexpr rest (by omega)) ?_
    intro found rest hfound hrest
    have hgap := hrest.trans (Left.skip rest)
    have hless := hgap.length_le
    refine Takes.bind hgap (takes_block hstatement (by omega) (by omega)) ?_
    intro body rest hbody hrest
    exact Takes.ok ⟨hfound, hbody⟩ hrest (by omega)
  | once =>
    have hskip := Left.skip text
    have hlength := hskip.length_le
    rw [keyworded]
    refine Takes.bind hskip (takes_block hstatement (by omega) (by omega)) ?_
    intro body rest hbody hrest
    exact Takes.ok hbody hrest (by omega)
  | perform verb =>
    rw [keyworded]
    refine Takes.expectBlank (Left.refl text) fun rest hrest => ?_
    have hlength := hrest.length_le
    refine Takes.bind hrest (hexpr rest (by omega)) ?_
    intro value rest hvalue hrest
    exact Takes.ok hvalue hrest (by omega)
  | run => exact takes_run hexpr hstatement hn
  | use => exact takes_use (by omega)
  | define => exact takes_define hstatement hn

theorem takes_oneStatement (hexpr : TakesBelow (n + 1) Expr.Plain expr)
    (hstatement : TakesBelow n Statement.Plain statement) (hn : text.length ≤ n) :
    Takes 1 Statement.Plain text (oneStatement expr statement (n + 1) text) := by
  rw [oneStatement]
  split
  · rename_i rest heat
    have hrest := Left.of_eat? heat
    have hlength := hrest.length_le
    refine Takes.bind hrest (takes_object hexpr (by omega) (by omega)) ?_
    intro scheme rest hscheme hrest
    have hgap := hrest.trans (Left.skip rest)
    have hless := hgap.length_le
    exact ((takes_schemed hexpr hstatement (by omega) hscheme).within hgap).mono (by omega)
  · split
    · rename_i keyword rest hkeyword
      have hrest := Left.of_keyword? hkeyword
      have hlength := hrest.length_le
      exact ((takes_keyworded hexpr hstatement (by omega) keyword).within hrest).mono (by omega)
    · exact takes_assignment hexpr (by omega) (by omega)

end

/-- Reading a statement never stops at a bound above the length of the text. -/
theorem takesBelow_statementAt (n : Nat) : TakesBelow n Statement.Plain (statementAt n) := by
  induction n with
  | zero => exact fun text hn => absurd hn (Nat.not_lt_zero _)
  | succ n ih =>
    intro text hn
    exact takes_oneStatement (takesBelow_expressionAt (n + 1)) ih (Nat.le_of_lt_succ hn)

end Reader

end Dialogue
