import Dialogue.Proofs.Progress.Shape
import Dialogue.Proofs.Seam.Statement

/-!
# Scripts one after the other

A script that is followed, on a new line, by a text that starts a statement is read as before, and
then the text is read as if it stood alone: `Script.read_line_append` says so for scripts and for
faults, whose places move by what stands above.
-/

namespace Dialogue

open Text (skip byteLength lastLine Position)

/-! ## Reading on past a seam -/

namespace Reader

section

variable {s text rest : List Char} {statement statement' : Reader Statement} {P : List Statement}

/-- What one round of reading statements comes to: the text has ended, a block ends, or a statement
is read and others after it. -/
theorem statements_ok_cases {k : Nat} (h : statements statement (k + 1) text = .ok (P, rest)) :
    (skip text = [] ∧ P = [] ∧ rest = []) ∨
    (P = [] ∧ ∃ more, rest = '}' :: more) ∨
    ∃ c more first middle others, skip text = c :: more ∧ c ≠ '}' ∧
      statement (c :: more) = .ok (first, middle) ∧
      statements statement k middle = .ok (others, rest) ∧ P = first :: others := by
  rw [statements] at h
  cases htext : skip text with
  | nil =>
    rw [htext] at h
    cases h
    exact Or.inl ⟨rfl, rfl, rfl⟩
  | cons c more =>
    simp only [htext] at h
    by_cases hc : c = '}'
    · rw [if_pos hc] at h
      cases h
      exact Or.inr (Or.inl ⟨rfl, more, by rw [hc]⟩)
    · rw [if_neg hc] at h
      cases hfirst : statement (c :: more) with
      | error fault =>
        rw [hfirst] at h
        cases h
      | ok found =>
        obtain ⟨first, middle⟩ := found
        simp only [hfirst, ok_bind] at h
        cases hothers : statements statement k middle with
        | error fault =>
          rw [hothers] at h
          cases h
        | ok found =>
          rw [hothers] at h
          cases h
          exact Or.inr (Or.inr ⟨c, more, first, middle, found.1, rfl, hc, hfirst, hothers, rfl⟩)

/-- A bound on the rounds bounds the number of statements. -/
theorem length_lt_of_statements {k : Nat} (h : statements statement k text = .ok (P, rest)) :
    P.length < k := by
  induction k generalizing text P with
  | zero => cases h
  | succ k ih =>
    rcases statements_ok_cases h with ⟨-, rfl, -⟩ | ⟨rfl, -⟩ |
      ⟨c, more, first, middle, others, -, -, -, hothers, rfl⟩
    · exact Nat.succ_pos k
    · exact Nat.succ_pos k
    · exact Nat.succ_lt_succ (ih hothers)

/-- Statements that take up all of a text are read first, and then those past the seam. -/
theorem statements_seam (hs : Seam s) (hstatement : Sealed s statement statement') {k m : Nat}
    (hkm : k ≤ m) (h : statements statement k text = .ok (P, rest)) (hrest : skip rest = []) :
    statements statement' m (text ++ s) = (do
      let (Q, rest) ← statements statement' (m - P.length) s
      .ok (P ++ Q, rest)) := by
  induction k generalizing m text P with
  | zero => cases h
  | succ k ih =>
    obtain ⟨m, rfl⟩ := Nat.exists_eq_succ_of_ne_zero (Nat.ne_zero_of_lt hkm)
    rcases statements_ok_cases h with ⟨hnone, rfl, -⟩ | ⟨-, more, rfl⟩ |
      ⟨c, more, first, middle, others, htext, hc, hfirst, hothers, rfl⟩
    · have hskip : skip (text ++ s) = skip s := by
        rcases Text.skip_seam hs text with ⟨hne, -⟩ | ⟨-, hskip⟩
        · exact absurd hnone hne
        · exact hskip
      have hsame : statements statement' (m + 1) (text ++ s) = statements statement' (m + 1) s := by
        rw [statements, statements, hskip]
      rw [hsame, List.length_nil, Nat.sub_zero]
      cases statements statement' (m + 1) s with
      | error fault => rfl
      | ok found => rfl
    · rw [Text.skip_cons (by decide)] at hrest
      cases hrest
    · have hskip : skip (text ++ s) = c :: (more ++ s) := by
        rcases Text.skip_seam hs text with ⟨-, hskip⟩ | ⟨hnone, -⟩
        · rw [hskip, htext, List.cons_append]
        · rw [htext] at hnone
          cases hnone
      have hlonger : statement' (c :: (more ++ s)) = .ok (first, middle ++ s) := by
        have hfollows := hstatement.follows (c :: more)
        rw [hfirst] at hfollows
        rcases hfollows with hlonger | ⟨-, hdangling⟩
        · exact hlonger
        · exact absurd hothers (statements_ne_ok hstatement.rejects hdangling _)
      rw [statements, hskip]
      simp only [if_neg hc, hlonger, ok_bind, ih (Nat.le_of_succ_le_succ hkm) hothers,
        List.length_cons, Nat.succ_sub_succ]
      cases statements statement' (m - others.length) s with
      | error fault => rfl
      | ok found => rfl

end

/-- A larger bound than the length of a text needs does not change how its statements are read. -/
theorem statements_of_le {text : List Char} {n m k j : Nat} (hn : text.length < n) (hnm : n ≤ m)
    (hk : text.length < k) (hkj : k ≤ j) :
    statements (statementAt m) j text = statements (statementAt n) k text := by
  have hfollows := follows_statements Seam.nil (sealed_statementAt Seam.nil hnm) hkj text
  rw [List.append_nil] at hfollows
  exact hfollows.eq_of_takes (takes_statements (takesBelow_statementAt n) hn hk)

/-- A script is read if its statements are, and nothing but a gap follows them. -/
theorem script_eq_ok_iff {text : List Char} {P : Script} :
    script text = .ok P ↔ ∃ rest,
      statements (statementAt (text.length + 1)) (text.length + 1) text = .ok (P, rest) ∧
        skip rest = [] := by
  rw [script]
  cases statements (statementAt (text.length + 1)) (text.length + 1) text with
  | error fault =>
    constructor
    · intro h
      cases h
    · rintro ⟨rest, h, -⟩
      cases h
  | ok found =>
    obtain ⟨Q, rest⟩ := found
    simp only [ok_bind]
    constructor
    · intro h
      refine ⟨rest, ?_⟩
      cases hrest : skip rest with
      | nil =>
        rw [hrest] at h
        cases h
        exact ⟨rfl, rfl⟩
      | cons c more =>
        rw [hrest] at h
        cases h
    · rintro ⟨rest, h, hrest⟩
      cases h
      rw [hrest]

/-- A script, and on a new line a text that starts a statement. -/
theorem script_line_append {a b : List Char} {P : Script} (ha : script a = .ok P)
    (hb : startsAnew b = true) : script (a ++ '\n' :: b) = (do
      let Q ← script b
      .ok (P ++ Q)) := by
  obtain ⟨rest, hread, hrest⟩ := script_eq_ok_iff.1 ha
  have hs : Seam ('\n' :: b) := .line hb
  have hlength : (a ++ '\n' :: b).length = a.length + b.length + 1 := by
    rw [List.length_append, List.length_cons]
    omega
  have hless := length_lt_of_statements hread
  -- past the seam, a newline in front and a larger bound make no difference
  obtain ⟨j, hj⟩ := Nat.exists_eq_succ_of_ne_zero
    (show (a ++ '\n' :: b).length + 1 - P.length ≠ 0 by omega)
  have hline : ∀ reader, statements reader (j + 1) ('\n' :: b) = statements reader (j + 1) b := by
    intro reader
    rw [statements, statements, Text.skip_newline]
  have hbound := statements_of_le (n := b.length + 1) (m := (a ++ '\n' :: b).length + 1)
    (k := b.length + 1) (j := j + 1) (Nat.lt_succ_self b.length) (by omega)
    (Nat.lt_succ_self b.length) (by omega)
  have hbelow : a.length + 1 ≤ (a ++ '\n' :: b).length + 1 := by omega
  have hall := statements_seam hs (sealed_statementAt hs hbelow) hbelow hread hrest
  rw [hj, hline, hbound] at hall
  rw [script, script, hall]
  cases statements (statementAt (b.length + 1)) (b.length + 1) b with
  | error fault => rfl
  | ok found =>
    obtain ⟨Q, rest⟩ := found
    simp only [ok_bind]
    cases skip rest with
    | nil => rfl
    | cons c more => rfl

end Reader

/-! ## Places below other lines -/

namespace Text

theorem takeWhile_append_cons {α : Type} {p : α → Bool} {c : α} (hc : p c = false)
    (front back : List α) : (front ++ c :: back).takeWhile p = front.takeWhile p := by
  induction front with
  | nil => simp [hc]
  | cons d front ih =>
    by_cases hd : p d = true
    · simp [hd, ih]
    · simp [hd]

theorem lastLine_line_append (above before : List Char) :
    lastLine (above ++ '\n' :: before) = lastLine before := by
  rw [lastLine, lastLine, List.reverse_append, List.reverse_cons, List.append_assoc,
    List.singleton_append, takeWhile_append_cons (by decide)]

end Text

namespace Diagnostic

/-- A diagnostic for a text, as a diagnostic for the text below some other one. -/
def below (above : List Char) (d : Diagnostic) : Diagnostic :=
  { d with position :=
      { d.position with
        line := d.position.line + (1 + above.count '\n')
        offset := d.position.offset + (byteLength above + 1) } }

theorem between_line_append (code : FaultCode) (message : String) (above before rest : List Char) :
    between code message (above ++ '\n' :: before) rest =
      (between code message before rest).below above := by
  have hline : (above ++ '\n' :: before).count '\n' + 1 =
      before.count '\n' + 1 + (1 + above.count '\n') := by
    rw [List.count_append, List.count_cons_self]
    omega
  have hoffset : byteLength (above ++ '\n' :: before) =
      byteLength before + (byteLength above + 1) := by
    rw [Text.byteLength_append, byteLength]
    have hnewline : '\n'.utf8Size = 1 := rfl
    omega
  simp only [between, below, Position.after, Text.lineAround, Text.lastLine_line_append, hline,
    hoffset]

theorem ofFault_line_append {above source : List Char} {fault : Fault}
    (h : fault.rest <:+ source) :
    ofFault (above ++ '\n' :: source) fault = (ofFault source fault).below above := by
  obtain ⟨before, rfl⟩ := h
  have hsource : above ++ '\n' :: (before ++ fault.rest) =
      above ++ '\n' :: before ++ fault.rest := by
    rw [List.append_assoc, List.cons_append]
  rw [hsource, ofFault_append, ofFault_append, between_line_append]

end Diagnostic

/-- Scripts compose: a text that starts a statement is read on the line below a script as it is
read alone. Its statements follow those of the script, and its fault has the same kind, wording,
column and line of text, at a line and an offset that are larger by what stands above. -/
theorem Script.read_line_append (a b : String) (P : Script) (ha : Script.read a = .ok P)
    (hb : Reader.startsAnew b.toList = true) :
    (∀ Q, Script.read b = .ok Q → Script.read (a ++ "\n" ++ b) = .ok (P ++ Q)) ∧
    (∀ d, Script.read b = .error d →
      Script.read (a ++ "\n" ++ b) = .error (d.below a.toList)) := by
  have hscript : Reader.script a.toList = .ok P := by
    rw [Script.read] at ha
    cases hread : Reader.script a.toList with
    | error fault =>
      rw [hread] at ha
      cases ha
    | ok found =>
      rw [hread] at ha
      cases ha
      rfl
  have htext : (a ++ "\n" ++ b).toList = a.toList ++ '\n' :: b.toList := by
    rw [String.toList_append, String.toList_append, List.append_assoc]
    rfl
  have hplace := Reader.takes_script b.toList
  rw [Script.read, Script.read, htext, Reader.script_line_append hscript hb]
  cases hread : Reader.script b.toList with
  | ok found =>
    refine ⟨fun Q hQ => ?_, fun d hd => by cases hd⟩
    cases hQ
    rfl
  | error fault =>
    rw [hread] at hplace
    refine ⟨fun Q hQ => (by cases hQ), fun d hd => ?_⟩
    cases hd
    exact congrArg Except.error (Diagnostic.ofFault_line_append hplace.1.suffix)

/-- A fault on the line below a script that ends in a comment. -/
theorem Script.read_line_append_comment :
    Script.read "act x // é\nhop y is" = .error
      { code := .mismatch, message := "Expected '='", position := ⟨2, 8, 20⟩,
        snippet := "hop y is" } := by
  refine (Script.read_line_append "act x // é" "hop y is" [.perform .act (.name "x")]
    ?script ?start).2
    { code := .mismatch, message := "Expected '='", position := ⟨1, 8, 8⟩,
      snippet := "hop y is" } ?fault
  case script => rfl
  case start => decide
  case fault =>
    have hread : Reader.script "hop y is".toList = .error ⟨.expected "=", []⟩ := rfl
    rw [Script.read, hread]
    exact congrArg Except.error (by decide)

end Dialogue
