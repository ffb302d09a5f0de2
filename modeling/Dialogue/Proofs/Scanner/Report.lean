import Dialogue.Proofs.Place.Report
import Dialogue.Proofs.Scanner.Lexeme
import Dialogue.Scanner.Statement

/-!
# Reports that are made of slices

A report slices the source at the start and at the end of a line, which it finds by looking for
newlines. These slices exist whenever the offset that is reported has a text before it, and the
position and the diagnostic are those of that offset (`Position.sliced?_eq`,
`Diagnostic.sliced?_eq`), for an offset past the end, too.
-/

namespace Dialogue

open Text (Position byteLength splitAtByte? slices? sliceTo? sliceFrom? slice? firstOffset?
  lastOffset? lineStart firstLine lastLine lineAround skipBlanks)

namespace Text

/-! ## Offsets of newlines -/

theorem lastOffset?_eq_none {c : Char} {text : List Char} (h : c ∉ text) :
    lastOffset? c text = none := by
  induction text with
  | nil => rfl
  | cons d text ih =>
    rw [List.mem_cons, not_or] at h
    rw [lastOffset?, ih h.2]
    exact if_neg (Ne.symm h.1)

theorem exists_lastOffset? {c : Char} {text : List Char} (h : c ∈ text) :
    ∃ offset, lastOffset? c text = some offset := by
  induction text with
  | nil => cases h
  | cons d text ih =>
    rw [lastOffset?]
    cases hlast : lastOffset? c text with
    | some offset => exact ⟨_, rfl⟩
    | none =>
      rcases List.mem_cons.1 h with rfl | hmem
      · exact ⟨0, if_pos rfl⟩
      · obtain ⟨offset, hoffset⟩ := ih hmem
        rw [hlast] at hoffset
        cases hoffset

/-- The last line of a text starts at its line start. -/
theorem exists_byteLength_eq_lineStart (text : List Char) :
    ∃ above, text = above ++ lastLine text ∧ byteLength above = lineStart text := by
  induction text with
  | nil => exact ⟨[], rfl, rfl⟩
  | cons c text ih =>
    by_cases hmem : '\n' ∈ text
    · obtain ⟨above, htext, hlength⟩ := ih
      obtain ⟨offset, hoffset⟩ := exists_lastOffset? hmem
      refine ⟨c :: above, ?_, ?_⟩
      · rw [lastLine_cons_of_mem hmem, List.cons_append, ← htext]
      · rw [byteLength, hlength, lineStart, lineStart, lastOffset?, hoffset]
        exact (Nat.add_assoc ..).symm
    · have hnone := lastOffset?_eq_none hmem
      by_cases hc : c = '\n'
      · refine ⟨['\n'], ?_, ?_⟩
        · rw [hc, ← List.nil_append ('\n' :: text), lastLine_line_append,
            lastLine_of_not_mem hmem]
          rfl
        · rw [lineStart, lastOffset?, hnone, hc]
          rfl
      · refine ⟨[], ?_, ?_⟩
        · rw [lastLine_of_not_mem (by simp [hmem, Ne.symm hc])]
          rfl
        · rw [lineStart, lastOffset?, hnone]
          simp [hc, byteLength]

/-- The first line of a text ends at its first newline, or with the text. -/
theorem firstOffset?_getD (text : List Char) (start : Nat) :
    ((firstOffset? '\n' text).map (start + ·)).getD (start + byteLength text) =
      start + byteLength (firstLine text) := by
  induction text generalizing start with
  | nil => rfl
  | cons c text ih =>
    by_cases hc : c = '\n'
    · simp [firstOffset?, firstLine, hc, byteLength]
    · have hrest := ih (start + c.utf8Size)
      rw [Nat.add_assoc, Nat.add_assoc] at hrest
      simp only [firstOffset?, hc, if_false, firstLine, List.takeWhile_cons, bne_iff_ne, ne_eq,
        not_false_eq_true, if_true, byteLength, Option.map_map]
      rw [← firstLine, ← hrest]
      congr 2
      funext offset
      exact (Nat.add_assoc ..).symm

/-! ## Slices at an offset -/

theorem append_of_splitAtByte? {offset : Nat} {text front back : List Char}
    (h : splitAtByte? offset text = some (front, back)) : text = front ++ back := by
  induction text generalizing offset front with
  | nil =>
    obtain ⟨rfl, rfl⟩ := Prod.mk.inj (Option.some.inj h)
    rfl
  | cons c text ih =>
    rw [splitAtByte?] at h
    split at h
    · obtain ⟨rfl, rfl⟩ := Prod.mk.inj (Option.some.inj h)
      rfl
    · split at h
      · cases h
      · obtain ⟨⟨inner, rest⟩, hinner, hparts⟩ := Option.map_eq_some_iff.1 h
        obtain ⟨rfl, rfl⟩ := Prod.mk.inj hparts
        rw [List.cons_append, ← ih hinner]

/-- An offset past the end is cut at the end. -/
theorem slices?_min (offset : Nat) (text : List Char) :
    slices? (min offset (byteLength text)) text = splitAtByte? offset text := by
  rw [slices?, if_pos (Nat.min_le_right ..)]
  induction text generalizing offset with
  | nil => rfl
  | cons c text ih =>
    have hpos : 0 < c.utf8Size := c.utf8Size_pos
    rw [splitAtByte?, splitAtByte?, byteLength]
    by_cases hzero : offset = 0
    · rw [if_pos (by omega), if_pos hzero]
    · rw [if_neg (by omega), if_neg hzero]
      by_cases hinside : offset < c.utf8Size
      · rw [if_pos (by omega), if_pos hinside]
      · rw [if_neg (by omega), if_neg hinside, ← ih (offset - c.utf8Size)]
        congr 2
        omega

theorem sliceFrom?_lineStart (text : List Char) :
    sliceFrom? (lineStart text) text = some (lastLine text) := by
  obtain ⟨above, htext, hlength⟩ := exists_byteLength_eq_lineStart text
  have hslice := sliceFrom?_byteLength above (lastLine text)
  rwa [← htext, hlength] at hslice

/-- The slices of a position exist if its offset has a text before it. -/
theorem Position.sliced?_eq (text : List Char) (offset : Nat) :
    Position.sliced? text offset = Position.at? text offset := by
  rw [Position.sliced?, Position.at?, sliceTo?, slices?_min]
  cases splitAtByte? offset text with
  | none => rfl
  | some parts =>
    simp only [Option.map_some, Option.bind_eq_bind, Option.bind_some, sliceFrom?_lineStart]
    rfl

end Text

/-- The slices of a diagnostic exist if its offset has a text before it. -/
theorem Diagnostic.sliced?_eq (code : FaultCode) (message : String) (source : List Char)
    (offset : Nat) :
    Diagnostic.sliced? code message source offset = Diagnostic.at? code message source offset := by
  rw [Diagnostic.sliced?, Position.sliced?_eq, Position.at?, Diagnostic.at?]
  cases hsplit : splitAtByte? offset source with
  | none => rfl
  | some parts =>
    obtain ⟨before, rest⟩ := parts
    have hconsumed : sliceTo? (min offset (byteLength source)) source = some before := by
      rw [sliceTo?, Text.slices?_min, hsplit, Option.map_some]
    obtain ⟨above, hbefore, hlength⟩ := Text.exists_byteLength_eq_lineStart before
    have hsource : source = above ++ (lastLine before ++ rest) := by
      rw [← List.append_assoc, ← hbefore]
      exact Text.append_of_splitAtByte? hsplit
    have hbelow : sliceFrom? (lineStart before) source = some (lastLine before ++ rest) := by
      rw [hsource, ← hlength, Text.sliceFrom?_byteLength]
    have hstop : ((firstOffset? '\n' (lastLine before ++ rest)).map (lineStart before + ·)).getD
        (byteLength source) = lineStart before + byteLength (lineAround before rest) := by
      rw [hsource, Text.byteLength_append, hlength, Text.firstOffset?_getD,
        Text.firstLine_lastLine_append]
    have hline : slice? (lineStart before) (lineStart before + byteLength (lineAround before rest))
        source = some (lineAround before rest) := by
      have hfirst : lastLine before ++ rest =
          lineAround before rest ++ (lastLine before ++ rest).dropWhile (· != '\n') := by
        rw [← Text.firstLine_lastLine_append]
        exact List.takeWhile_append_dropWhile.symm
      rw [hsource, hfirst, ← hlength, Text.slice?_byteLength]
    simp only [Option.map_some, Option.bind_eq_bind, Option.bind_some, hconsumed, hbelow, hstop,
      hline]
    rfl

end Dialogue
