import Dialogue.Proofs.Seam.Script
import Mathlib.Data.List.DropRight
import Mathlib.Data.Prod.Lex

/-!
# Lines and columns name offsets

The line and the column of a position are counted in the text before it. Each further character
moves the position forward: a newline to the start of the next line, any other one to the next
column (`Position.after_concat`). So positions have the order of the offsets that they belong to.
The other way round, dropping the lines above and then the characters to the left leads from a
position back to its place (`dropLines?_after`). `Position.names_offset` has both directions, for
every offset between characters.
-/

namespace Dialogue

namespace Text

/-! ## Offsets between characters -/

/-- Whether an offset in bytes lies in a text or at its end, and between two of its characters. -/
def isBoundary (source : List Char) (offset : Nat) : Bool :=
  decide (offset ≤ byteLength source) && (splitAtByte? offset source).isSome

theorem isBoundary_byteLength (before rest : List Char) :
    isBoundary (before ++ rest) (byteLength before) = true := by
  rw [isBoundary, splitAtByte?_byteLength, byteLength_append]
  simp

/-- An offset between characters has a text before it, which is as long as the offset says. -/
theorem exists_of_isBoundary {source : List Char} {offset : Nat}
    (h : isBoundary source offset = true) :
    ∃ before rest, source = before ++ rest ∧ byteLength before = offset := by
  induction source generalizing offset with
  | nil =>
    simp only [isBoundary, byteLength, Nat.le_zero_eq, Bool.and_eq_true, decide_eq_true_eq] at h
    exact ⟨[], [], rfl, h.1.symm⟩
  | cons c source ih =>
    rw [isBoundary, Bool.and_eq_true, decide_eq_true_eq, byteLength, splitAtByte?] at h
    obtain ⟨hle, hsome⟩ := h
    by_cases hzero : offset = 0
    · exact ⟨[], c :: source, rfl, hzero.symm⟩
    · by_cases hinside : offset < c.utf8Size
      · simp [hzero, hinside] at hsome
      · rw [if_neg hzero, if_neg hinside, Option.isSome_map] at hsome
        have hinner : isBoundary source (offset - c.utf8Size) = true := by
          rw [isBoundary, Bool.and_eq_true, decide_eq_true_eq]
          exact ⟨by omega, hsome⟩
        obtain ⟨before, rest, hsource, hbefore⟩ := ih hinner
        refine ⟨c :: before, rest, by rw [hsource, List.cons_append], ?_⟩
        rw [byteLength, hbefore]
        omega

/-! ## One character further -/

theorem lastLine_eq_rtakeWhile (before : List Char) :
    lastLine before = before.rtakeWhile (· != '\n') := rfl

theorem lastLine_concat (before : List Char) (c : Char) :
    lastLine (before ++ [c]) = if c = '\n' then [] else lastLine before ++ [c] := by
  rw [lastLine_eq_rtakeWhile, List.rtakeWhile_concat]
  by_cases hc : c = '\n'
  · rw [if_pos hc, if_neg (by simp [hc])]
  · rw [if_neg hc, if_pos (by simp [hc])]
    rfl

theorem lastLine_of_not_mem {before : List Char} (h : '\n' ∉ before) :
    lastLine before = before := by
  rw [lastLine_eq_rtakeWhile, List.rtakeWhile_eq_self_iff]
  intro c hc
  rw [bne_iff_ne]
  rintro rfl
  exact h hc

theorem lastLine_cons_of_mem {before : List Char} (h : '\n' ∈ before) (c : Char) :
    lastLine (c :: before) = lastLine before := by
  obtain ⟨above, below, rfl⟩ := List.append_of_mem h
  rw [← List.cons_append, lastLine_line_append, lastLine_line_append]

namespace Position

/-- A further character moves the position to the start of the next line or to the next column. -/
theorem after_concat (before : List Char) (c : Char) :
    after (before ++ [c]) =
      if c = '\n' then ⟨(after before).line + 1, 0, (after before).offset + c.utf8Size⟩
      else ⟨(after before).line, (after before).column + 1,
        (after before).offset + c.utf8Size⟩ := by
  have hoffset : byteLength (before ++ [c]) = byteLength before + c.utf8Size :=
    byteLength_append before [c]
  by_cases hc : c = '\n'
  · rw [if_pos hc, after, hoffset, lastLine_concat, if_pos hc, hc, List.count_append]
    rfl
  · rw [if_neg hc, after, hoffset, lastLine_concat, if_neg hc, List.length_append,
      List.count_append, List.count_singleton, if_neg (by simpa using hc)]
    rfl

/-- The line and the column of a position, the line first. -/
def place (p : Position) : Nat ×ₗ Nat := toLex (p.line, p.column)

theorem place_after_lt_concat (before : List Char) (c : Char) :
    (after before).place < (after (before ++ [c])).place := by
  rw [after_concat, place, place, Prod.Lex.toLex_lt_toLex]
  by_cases hc : c = '\n'
  · rw [if_pos hc]
    exact Or.inl (Nat.lt_succ_self _)
  · rw [if_neg hc]
    exact Or.inr ⟨rfl, Nat.lt_succ_self _⟩

/-- Each character moves the position forward, so all of them do. -/
theorem place_after_lt (before : List Char) {between : List Char} (h : between ≠ []) :
    (after before).place < (after (before ++ between)).place := by
  induction between generalizing before with
  | nil => exact absurd rfl h
  | cons c between ih =>
    rw [List.append_cons]
    by_cases hnil : between = []
    · rw [hnil, List.append_nil]
      exact place_after_lt_concat before c
    · exact (place_after_lt_concat before c).trans (ih (before ++ [c]) hnil)

theorem at?_byteLength (before rest : List Char) :
    at? (before ++ rest) (byteLength before) = some (after before) := by
  rw [at?, splitAtByte?_byteLength]
  rfl

end Position

/-- Of two places in a text, the one with the smaller offset comes first. -/
theorem exists_between_of_lt {text before before' rest rest' : List Char}
    (h : text = before ++ rest) (h' : text = before' ++ rest')
    (hlt : byteLength before < byteLength before') :
    ∃ between, between ≠ [] ∧ before' = before ++ between := by
  rcases List.append_eq_append_iff.1 (h.symm.trans h') with
    ⟨between, hbetween, -⟩ | ⟨between, hbetween, -⟩
  · refine ⟨between, ?_, hbetween⟩
    rintro rfl
    rw [hbetween, List.append_nil] at hlt
    exact absurd hlt (Nat.lt_irrefl _)
  · rw [hbetween, byteLength_append] at hlt
    omega

/-! ## Back to the place -/

/-- What follows the first lines of a text, as many as given; each of them has to end in a
newline. -/
def dropLines? : Nat → List Char → Option (List Char)
  | 0, text => some text
  | _ + 1, [] => none
  | n + 1, c :: text => if c = '\n' then dropLines? n text else dropLines? (n + 1) text

/-- What follows the lines that end before a place starts with the part of its line before it. -/
theorem dropLines?_after (before rest : List Char) :
    dropLines? (before.count '\n') (before ++ rest) = some (lastLine before ++ rest) := by
  induction before with
  | nil => rw [List.count_nil, dropLines?, lastLine_of_not_mem List.not_mem_nil]
  | cons c before ih =>
    by_cases hc : c = '\n'
    · have hline : lastLine (c :: before) = lastLine before := by
        rw [hc]
        exact lastLine_line_append [] before
      rw [hc, List.count_cons_self, List.cons_append, dropLines?, if_pos rfl, ih, ← hc, hline]
    · rw [List.count_cons_of_ne hc, List.cons_append]
      by_cases hmem : '\n' ∈ before
      · obtain ⟨n, hn⟩ := Nat.exists_eq_add_one.2 (List.count_pos_iff.2 hmem)
        rw [hn] at ih ⊢
        rw [dropLines?, if_neg hc, ih, lastLine_cons_of_mem hmem]
      · have hnone : '\n' ∉ c :: before := by
          rw [List.mem_cons, not_or]
          exact ⟨Ne.symm hc, hmem⟩
        rw [List.count_eq_zero.2 hmem, dropLines?, lastLine_of_not_mem hnone, List.cons_append]

/-- A position names the place in a text that has the given rest after it: the lines above it can be
dropped, then the characters to its left, of which none is a newline, and the rest is left. -/
def Position.Names (p : Position) (text rest : List Char) : Prop :=
  1 ≤ p.line ∧ ∃ lines, dropLines? (p.line - 1) text = some lines ∧ p.column ≤ lines.length ∧
    '\n' ∉ lines.take p.column ∧ lines.drop p.column = rest

theorem Position.names_after (before rest : List Char) :
    (after before).Names (before ++ rest) rest := by
  refine ⟨Nat.le_add_left 1 _, lastLine before ++ rest, dropLines?_after before rest, ?_, ?_, ?_⟩
  · rw [List.length_append]
    exact Nat.le_add_right _ _
  · rw [after, List.take_left]
    exact newline_notMem_lastLine before
  · exact List.drop_left

end Text

open Text (Position byteLength isBoundary)

/-- Positions and offsets determine each other. For every offset between characters of a text, the
position of the offset, which a diagnostic for it reports too, names the text from the offset on;
and it comes before the position of another offset exactly if the offset does. -/
theorem Text.Position.names_offset (text : List Char) (offset : Nat)
    (h : isBoundary text offset = true) :
    ∃ p before rest, text = before ++ rest ∧ byteLength before = offset ∧
      Position.at? text offset = some p ∧ p.offset = offset ∧
      (∀ code message, ∃ d, Diagnostic.at? code message text offset = some d ∧ d.position = p) ∧
      p.Names text rest ∧
      ∀ offset' p', isBoundary text offset' = true → Position.at? text offset' = some p' →
        (offset < offset' ↔ p.place < p'.place) := by
  obtain ⟨before, rest, rfl, rfl⟩ := Text.exists_of_isBoundary h
  refine ⟨.after before, before, rest, rfl, rfl, Position.at?_byteLength before rest, rfl, ?_,
    Position.names_after before rest, ?_⟩
  · intro code message
    exact ⟨_, Diagnostic.at?_byteLength code message before rest, rfl⟩
  · intro offset' p' h' hp'
    obtain ⟨before', rest', htext, rfl⟩ := Text.exists_of_isBoundary h'
    rw [htext, Position.at?_byteLength] at hp'
    obtain rfl := Option.some.inj hp'
    rcases Nat.lt_trichotomy (byteLength before) (byteLength before') with hlt | heq | hgt
    · obtain ⟨between, hne, rfl⟩ := Text.exists_between_of_lt rfl htext hlt
      exact iff_of_true hlt (Position.place_after_lt before hne)
    · -- equal offsets have the same text before them
      obtain ⟨rfl, -⟩ : before = before' ∧ rest = rest' := by
        have hsplit := Text.splitAtByte?_byteLength before rest
        rw [heq, htext, Text.splitAtByte?_byteLength] at hsplit
        obtain ⟨hbefore, hrest⟩ := Prod.mk.inj (Option.some.inj hsplit)
        exact ⟨hbefore.symm, hrest.symm⟩
      exact iff_of_false (Nat.lt_irrefl _) (lt_irrefl _)
    · obtain ⟨between, hne, rfl⟩ := Text.exists_between_of_lt htext rfl hgt
      exact iff_of_false (Nat.lt_asymm hgt) (lt_asymm (Position.place_after_lt before' hne))

/-- The place after a character of two bytes, a newline and a letter. -/
theorem Text.Position.names_offset_accent :
    Position.Names ⟨2, 1, 4⟩ "é\nab".toList ['b'] ∧
      Position.place ⟨1, 1, 2⟩ < Position.place ⟨2, 1, 4⟩ := by
  have hsplit : Text.splitAtByte? 4 "é\nab".toList = some (['é', '\n', 'a'], ['b']) := by decide
  have hlater : Position.at? "é\nab".toList 4 = some ⟨2, 1, 4⟩ := by decide
  have hearlier : Position.at? "é\nab".toList 2 = some ⟨1, 1, 2⟩ := by decide
  constructor
  · obtain ⟨p, before, rest, htext, hbytes, hp, -, -, hnames, -⟩ :=
      Position.names_offset "é\nab".toList 4 (by decide)
    have hrest := Text.splitAtByte?_byteLength before rest
    rw [← htext, hbytes, hsplit] at hrest
    rw [hlater] at hp
    rw [Option.some.inj hp, (Prod.mk.inj (Option.some.inj hrest)).2]
    exact hnames
  · obtain ⟨p, before, rest, -, -, hp, -, -, -, horder⟩ :=
      Position.names_offset "é\nab".toList 2 (by decide)
    rw [hearlier] at hp
    rw [Option.some.inj hp]
    exact (horder 4 ⟨2, 1, 4⟩ (by decide) hlater).1 (by decide)

end Dialogue
