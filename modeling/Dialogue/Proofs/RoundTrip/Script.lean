import Dialogue.Diagnostic
import Dialogue.Proofs.RoundTrip.Statement

/-!
# Scripts are read back

Since `statementAt` ties the knot under a bound, an induction on that bound gives every statement
from its forms, and with them the main results. Reading a written script succeeds and gives that
very script (`Script.read_write`). An expression with parentheses only where precedence and grouping
ask for them is read as that very expression (`Script.read_act_write`). A chain of `if` and `else`
is read as the fork with the same branches (`Script.read_chain`).
-/

namespace Dialogue

namespace Reader

theorem readsBack_succ (n : Nat) : ReadsBack .full (expressionAt (n + 1)) n :=
  (readsBack_expressionAt .full (n + 1)).mono (Nat.le_succ n)

theorem readsWrapped_succ (n : Nat) : ReadsWrapped (expressionAt (n + 1)) n :=
  (readsWrapped_expressionAt (n + 1)).mono (Nat.le_succ n)

theorem readsLine_statementAt (n : Nat) : ReadsLine (statementAt n) n := by
  induction n with
  | zero => exact fun s text _ _ hlength => absurd hlength (Nat.not_lt_zero _)
  | succ n ih =>
    intro s text h hs hlength more hmore
    exact oneStatement_spelled (readsBack_succ n) (readsWrapped_succ n) ih h hs
      (Nat.le_of_lt_succ hlength) hmore

/-- A script is read back from each of its texts. -/
theorem script_spelledLines {P : Script} {lines : List Char}
    (hlines : Statement.SpelledLines P lines) (h : P.Plain) : script lines = .ok P := by
  have hle := length_le_of_spelledLines hlines
  have hread := statements_spelledLines (readsLine_statementAt _) hlines h
    (Nat.le_succ lines.length) (Nat.lt_succ_of_le hle) ClosesBlock.nil
  rw [List.append_nil] at hread
  rw [script, hread]
  rfl

theorem script_writeLines {P : Script} (h : P.Plain) :
    script (Statement.writeLines P) = .ok P :=
  script_spelledLines (Statement.spelledLines_writeLines P) h

/-- A statement that is read up to the end of the text is a script of its own. -/
theorem script_single {s : Statement} {text : List Char} (hstart : StatementStart text)
    (hread : statementAt (text.length + 1) text = .ok (s, [])) : script text = .ok [s] := by
  have hend : statements (statementAt (text.length + 1)) text.length [] = .ok ([], []) := by
    obtain ⟨c, cs, rfl, -⟩ := hstart.exists_cons
    exact statements_of_closesBlock ClosesBlock.nil _
  rw [script, statements_cons hstart hread, hend]
  rfl

end Reader

/-- Reading undoes writing: every script that can be written is read back from its text, and
reading it does not fail. -/
theorem Script.read_write (P : Script) (h : P.Plain) : Script.read P.write = .ok P := by
  rw [Script.read, Script.write, String.toList_ofList, Reader.script_writeLines h]
  rfl

/-- A script with names that are keywords, a string that needs escapes, a number below zero, and
a program with branches. -/
def keywordScript : Script :=
  [.run (.member (.name "shop") (.literal (.string "\n\"")))
    [.binary .sub (.name "act") (.not (.literal (.number
      (.finite ⟨true, 3 * 2 ^ (51 : Nat), 1022, by decide, by decide, by decide⟩))))]
    (some "in")
    (some ⟨none,
      [⟨some (.call (.name "exists") [.name "in"]),
        [.set (.edit (.name "if") [.name "k"]) (.name "in")]⟩,
       ⟨none, [.perform .hop (.array [])]⟩]⟩),
   .use (.literal (.string "m")) [.string "x", .string "y"],
   .set (.list [.name "act"]) (.object [])]

theorem Script.read_write_keywordScript :
    keywordScript.Plain ∧ Script.read keywordScript.write = .ok keywordScript := by
  have hplain : keywordScript.Plain := by
    have hnumber : Literal.Plain (.number
        (.finite ⟨true, 3 * 2 ^ (51 : Nat), 1022, by decide, by decide, by decide⟩)) :=
      Reader.readable_of_ne_nan (by decide)
    have hname : ∀ x ∈ ["shop", "act", "exists", "in", "if", "k"], Expr.Plain (.name x) := by
      simp only [Expr.Plain]
      decide
    refine ⟨⟨⟨hname "shop" (by decide), trivial⟩, ⟨⟨hname "act" (by decide), hnumber⟩, trivial⟩,
      ⟨"in", rfl, by decide⟩, rfl, ?branches⟩, ?use, ?set, trivial⟩
    case branches =>
      have hbody : Statement.Plain (.set (.edit (.name "if") [.name "k"]) (.name "in")) :=
        ⟨⟨List.cons_ne_nil _ _, rfl, hname "if" (by decide), by simp [hname "k"]⟩,
          hname "in" (by decide)⟩
      refine ⟨?_, ⟨hbody, trivial⟩, by simp, ⟨trivial, trivial⟩, trivial⟩
      intro e he
      cases he
      exact ⟨hname "exists" (by decide), hname "in" (by decide), trivial⟩
    case use =>
      refine ⟨⟨"m", rfl⟩, List.cons_ne_nil _ _, ?_⟩
      simp only [List.forall_mem_cons]
      exact ⟨⟨"x", rfl, by decide⟩, ⟨"y", rfl, by decide⟩, by simp⟩
    case set =>
      refine ⟨⟨List.cons_ne_nil _ _, ?_, by simp [hname "act"]⟩, trivial⟩
      intro e he
      cases he
      rfl
  exact ⟨hplain, Script.read_write _ hplain⟩

/-! ## A single expression with minimal parentheses -/

namespace Reader

/-- A verb takes any text of an expression, also one without parentheses around it. -/
theorem statementAt_perform {n : Nat} (verb : Verb) {e : Expr} {text rest : List Char}
    (hopens : OpensExpr text) (hread : expressionAt (n + 1) (text ++ rest) = .ok (e, rest)) :
    statementAt (n + 1) (verb.text.toList ++ ' ' :: (text ++ rest)) =
      .ok (.perform verb e, rest) := by
  have hskip := (hopens.append rest).skip_eq
  obtain ⟨c, cs, rfl, hc⟩ := hopens
  rw [List.cons_append] at hread hskip ⊢
  have hkeyword : oneStatement (expressionAt (n + 1)) (statementAt n) (n + 1)
        (verb.text.toList ++ ' ' :: c :: (cs ++ rest)) =
      keyworded (expressionAt (n + 1)) (statementAt n) (n + 1) (.perform verb)
        (' ' :: c :: (cs ++ rest)) :=
    oneStatement_keyword (.perform verb) (entersStatement_of_startsExpr hc) _
  rw [statementAt, hkeyword, keyworded]
  simp only [expectBlank_space, hskip, ok_bind, hread]

/-- A text that is read as an expression makes a script of one statement. -/
theorem script_act {e : Expr} {text : List Char} (hopens : OpensExpr text)
    (hread : ∀ n, text.length ≤ n → expressionAt (n + 1) text = .ok (e, [])) :
    script (phrase "act " ++ text) = .ok [.perform .act e] := by
  have hle : text.length ≤ (phrase "act " ++ text).length := by
    rw [List.length_append]
    omega
  have hexpr := hread _ hle
  rw [← List.append_nil text] at hexpr
  have hstatement := statementAt_perform .act hopens hexpr
  rw [List.append_nil] at hstatement
  exact script_single (.keyword (.perform .act) _) hstatement

/-- What is read as an expression that no operator is part of is read so at the end of a script,
too, under any bound above its length. -/
theorem expressionAt_of_primary {text : List Char} {e : Expr} (hne : text ≠ [])
    (hprimary : ∀ (expr : Reader Expr) (n : Nat) (rest : List Char),
      rest.head?.any goesOn = false → primary expr n (text ++ rest) = .ok (e, rest))
    {n : Nat} (hn : text.length ≤ n) : expressionAt (n + 1) text = .ok (e, []) := by
  have hunit : Continues (expressionAt n) n text e := .of_primary (hprimary _ _)
  have hread := (hunit.readsOperand hne hn).reads hn (Nat.zero_le 6) [] (Ends.nil _)
  rwa [List.append_nil] at hread

theorem script_act_write (style : Style) {e : Expr} (he : e.Plain) :
    script (phrase "act " ++ e.write style) = .ok [.perform .act e] := by
  refine script_act (Expr.opensExpr_write style he) fun n hn => ?_
  have hread := readsBack_expressionAt style (n + 1) e he (Nat.lt_succ_of_le hn) [] (Ends.nil _)
  rwa [List.append_nil] at hread

end Reader

/-- Operators bind by their levels and group to the left: an expression with parentheses only
where the table of levels asks for them is read back from its text. -/
theorem Script.read_act_write (e : Expr) (h : e.Plain) :
    Script.read (String.ofList (phrase "act " ++ e.write .minimal)) =
      .ok [.perform .act e] := by
  rw [Script.read, String.toList_ofList, Reader.script_act_write .minimal h]
  rfl

theorem Script.read_act_minus :
    Script.read "act a - b - (c - !d[e]) || f is g" =
      .ok [.perform .act (.binary .or
        (.binary .sub (.binary .sub (.name "a") (.name "b"))
          (.binary .sub (.name "c") (.not (.member (.name "d") (.name "e")))))
        (.binary .is (.name "f") (.name "g")))] := by
  refine Eq.trans (congrArg Script.read ?text) (Script.read_act_write _ ?plain)
  case text => decide
  case plain =>
    simp only [Expr.Plain]
    decide

/-! ## Forks and chains -/

namespace Reader

section

variable {scheme : Option (List (String × Expr))} {bs : List (Branch Statement)}
  {clauses : List Clause} (hscheme : ∀ fields ∈ scheme, Expr.PlainFields fields)
  (hbs : Branch.PlainEach bs) (hclauses : Branch.SpelledEach bs clauses)

include hscheme hbs hclauses

/-- A block of branches is a script of one fork. -/
theorem script_fork :
    script (schemeText scheme ++ (phrase "fork " ++ blockText (Clause.forkLines clauses))) =
      .ok [.fork ⟨scheme, bs⟩] := by
  have hspelled := Statement.Spelled.fork scheme hclauses
  have hstart := statementStart_spelled hspelled ⟨hscheme, hbs⟩ []
  rw [List.append_nil] at hstart
  apply script_single hstart
  generalize hn : (schemeText scheme ++
    (phrase "fork " ++ blockText (Clause.forkLines clauses))).length = n
  simp only [List.length_append] at hn
  have hread := branches_forkLines (readsWrapped_succ n) (readsLine_statementAt n) hclauses hbs
    (by omega) []
  have hfork := oneStatement_fork (readsBack_succ n) hscheme (by omega) hread
  rw [List.append_nil] at hfork
  exact hfork

/-- A chain is a script of one fork. -/
theorem script_chain (hchained : Branch.Chained bs) :
    script (schemeText scheme ++ Clause.chainText clauses) = .ok [.fork ⟨scheme, bs⟩] := by
  have hspelled := Statement.Spelled.chain scheme hchained hclauses
  have hstart := statementStart_spelled hspelled ⟨hscheme, hbs⟩ []
  rw [List.append_nil] at hstart
  apply script_single hstart
  generalize hn : (schemeText scheme ++ Clause.chainText clauses).length = n
  have hend : eatWord? "else" (Text.skip []) = none := rfl
  have hchain := oneStatement_chain (readsBack_succ n) (readsWrapped_succ n)
    (readsLine_statementAt n) hscheme hchained hclauses hbs (Nat.le_of_eq hn) hend
  rw [List.append_nil] at hchain
  exact hchain

end

end Reader

/-- A chain of `if` and `else` and a block of branches are two ways to write one fork. Whatever
texts are written for the bodies, with forks inside them in either way, both are read as the single
fork with these branches in order and with the data in front. -/
theorem Script.read_chain (scheme : Option (List (String × Expr)))
    (branches : List (Branch Statement)) (hscheme : ∀ fields ∈ scheme, Expr.PlainFields fields)
    (hbranches : Branch.PlainEach branches) (hchained : Branch.Chained branches) :
    (∃ clauses, Branch.SpelledEach branches clauses) ∧
    ∀ clauses, Branch.SpelledEach branches clauses →
      Script.read (String.ofList (schemeText scheme ++ Clause.chainText clauses)) =
        .ok [.fork ⟨scheme, branches⟩] ∧
      Script.read (String.ofList (schemeText scheme ++
          (phrase "fork " ++ blockText (Clause.forkLines clauses)))) =
        .ok [.fork ⟨scheme, branches⟩] := by
  refine ⟨⟨_, Branch.spelledEach_clauses branches⟩, ?_⟩
  intro clauses hclauses
  rw [Script.read, Script.read, String.toList_ofList, String.toList_ofList,
    Reader.script_chain hscheme hbranches hclauses hchained,
    Reader.script_fork hscheme hbranches hclauses]
  exact ⟨rfl, rfl⟩

/-- A fork with data whose first body is a chain without an `else`: the `else` after that body
belongs to the outer chain. -/
def danglingFork : Fork Statement :=
  ⟨some [("k", .name "z")],
    [⟨some (.name "a"), [.fork ⟨none, [⟨some (.name "b"), [.perform .act (.name "x")]⟩]⟩]⟩,
     ⟨none, [.set (.list [.name "c", .name "d"]) (.name "y")]⟩]⟩

theorem Script.read_chain_dangling :
    Script.read ("#\x7b\"k\": z\x7d if (a) \x7b\nif (b) \x7b\nact (x)\n\x7d\n\x7d" ++
        " else \x7b\n(c), (d) = (y)\n\x7d") = .ok [.fork danglingFork] ∧
    Script.read ("#\x7b\"k\": z\x7d fork \x7b\n(a) \x7b\nif (b) \x7b\nact (x)\n\x7d\n\x7d" ++
        "\n_ \x7b\n(c), (d) = (y)\n\x7d\n\x7d") = .ok [.fork danglingFork] := by
  have hname : ∀ x ∈ ["a", "b", "c", "d", "x", "y", "z"], Expr.Plain (.name x) := by
    simp only [Expr.Plain]
    decide
  have hscheme : ∀ fields ∈ danglingFork.scheme, Expr.PlainFields fields := by
    rintro fields ⟨⟩
    exact ⟨hname "z" (by decide), trivial⟩
  have hact : (Statement.perform .act (.name "x")).Plain := hname "x" (by decide)
  have hset : (Statement.set (.list [.name "c", .name "d"]) (.name "y")).Plain := by
    refine ⟨⟨List.cons_ne_nil _ _, nofun, ?_⟩, hname "y" (by decide)⟩
    rw [List.forall_mem_cons, List.forall_mem_singleton]
    exact ⟨hname "c" (by decide), hname "d" (by decide)⟩
  have hinner : Branch.PlainEach [⟨some (.name "b"), [.perform .act (.name "x")]⟩] := by
    refine ⟨?_, ⟨hact, trivial⟩, trivial⟩
    rintro e ⟨⟩
    exact hname "b" (by decide)
  have hbranches : Branch.PlainEach danglingFork.branches := by
    refine ⟨?_, ⟨⟨nofun, hinner⟩, trivial⟩, nofun, ⟨hset, trivial⟩, trivial⟩
    rintro e ⟨⟩
    exact hname "a" (by decide)
  have hchained : Branch.Chained danglingFork.branches := ⟨rfl, List.forall_mem_nil _⟩
  have hshort : Branch.Chained [⟨some (.name "b"), [Statement.perform .act (.name "x")]⟩] :=
    ⟨rfl, List.forall_mem_nil _⟩
  have hinnerText := Statement.Spelled.chain none hshort (Branch.spelledEach_clauses _)
  have hclauses : Branch.SpelledEach danglingFork.branches _ :=
    .cons (some (.name "a")) (.cons hinnerText .nil) (Branch.spelledEach_clauses [⟨none, _⟩])
  obtain ⟨hchain, hfork⟩ := (Script.read_chain _ _ hscheme hbranches hchained).2 _ hclauses
  refine ⟨Eq.trans (congrArg Script.read ?chain) hchain,
    Eq.trans (congrArg Script.read ?fork) hfork⟩
  case chain => decide
  case fork => decide

end Dialogue
