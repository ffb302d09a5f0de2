import Dialogue.Proofs.Progress.Lexeme

/-!
# Reading up to a seam

Nothing ends a statement, so every reader looks at what follows. A *seam* is the end of the text,
or a newline after which a new statement starts; nothing that is looked for past the end of a
statement starts there. `Follows` compares the reading of a text with the reading of the text and
what follows the seam. The first one is given the smaller bound; with nothing after the seam, it
says that a larger bound changes nothing. This module has the comparison for gaps and lexemes.
-/

namespace Dialogue

open Text (isBlank skip skipComment skipBlanks)

namespace Reader

/-! ## Seams -/

/-- Whether a text starts a new statement, after a gap: with the mark of data, or with a word that
cannot go on with the statement before it. -/
def startsAnew (text : List Char) : Bool :=
  (eat? '#' (skip text)).isSome ||
    (word? (skip text)).any fun found => found.1 ∉ ["is", "in", "else"]

/-- What may follow a list of statements: nothing, or a new line that starts a statement. -/
inductive Seam : List Char → Prop where
  | nil : Seam []
  | line {text : List Char} (h : startsAnew text = true) : Seam ('\n' :: text)

/-- Whether a character is looked for past the end of a statement: it neither starts a statement
nor ends a line. -/
def isMark (c : Char) : Bool := !isWordStart c && c != '#' && c != '\n'

theorem head_startsAnew {text : List Char} (h : startsAnew text = true) :
    ∃ c rest, skip text = c :: rest ∧ (c = '#' ∨ isWordStart c = true) := by
  rw [startsAnew, Bool.or_eq_true] at h
  rcases h with h | h
  · obtain ⟨rest, heat⟩ := Option.isSome_iff_exists.1 h
    exact ⟨'#', rest, eat?_eq_some heat, Or.inl rfl⟩
  · cases htext : skip text with
    | nil =>
      rw [htext] at h
      cases h
    | cons c rest =>
      refine ⟨c, rest, rfl, ?_⟩
      by_cases hc : isWordStart c = true
      · exact Or.inr hc
      · simp [htext, word?, hc] at h

theorem word_startsAnew {text rest : List Char} {word : String} (h : startsAnew text = true)
    (hword : word? (skip text) = some (word, rest)) : word ∉ ["is", "in", "else"] := by
  rw [startsAnew, Bool.or_eq_true] at h
  rcases h with h | h
  · obtain ⟨more, heat⟩ := Option.isSome_iff_exists.1 h
    rw [eat?_eq_some heat] at hword
    cases hword
  · simpa [hword] using h

end Reader

/-! ## Gaps -/

namespace Text

open Reader (Seam)

mutual

/-- A gap before a seam either ends in the text, or goes on past the seam. -/
theorem skip_seam {s : List Char} (hs : Seam s) : ∀ text : List Char,
    (skip text ≠ [] ∧ skip (text ++ s) = skip text ++ s) ∨
      (skip text = [] ∧ skip (text ++ s) = skip s)
  | [] => Or.inr ⟨rfl, rfl⟩
  | c :: rest => by
    rcases skip_cons_cases c rest with ⟨more, heq, hskip⟩ | ⟨hblank, hskip⟩ |
      ⟨hskip, hblank, hsolid⟩
    · have hlength : more.length ≤ rest.length := by
        rw [(List.cons.inj heq).2, List.length_cons]
        omega
      rw [hskip, heq]
      exact skipComment_seam hs more
    · have hlonger : skip (c :: rest ++ s) = skip (rest ++ s) := by
        rcases skip_cons_cases c (rest ++ s) with ⟨more, heq, -⟩ | ⟨-, h⟩ | ⟨-, h, -⟩
        · rw [(List.cons.inj heq).1] at hblank
          cases hblank
        · exact h
        · rw [hblank] at h
          cases h
      rw [hskip, hlonger]
      exact skip_seam hs rest
    · have hlonger : skip (c :: rest ++ s) = c :: rest ++ s := by
        rcases skip_cons_cases c (rest ++ s) with ⟨more, heq, -⟩ | ⟨h, -⟩ | ⟨h, -⟩
        · obtain ⟨rfl, hrest⟩ := List.cons.inj heq
          cases rest with
          | nil =>
            -- a slash before the seam starts no comment
            cases hs with
            | nil => cases hrest
            | line _ => cases hrest
          | cons d rest => exact absurd (by rw [(List.cons.inj hrest).1]) (hsolid rest)
        · rw [hblank] at h
          cases h
        · exact h
      rw [hskip, hlonger]
      exact Or.inl ⟨List.cons_ne_nil c rest, rfl⟩
termination_by text => text.length

theorem skipComment_seam {s : List Char} (hs : Seam s) : ∀ text : List Char,
    (skipComment text ≠ [] ∧ skipComment (text ++ s) = skipComment text ++ s) ∨
      (skipComment text = [] ∧ skipComment (text ++ s) = skip s)
  | [] => by
    refine Or.inr ⟨rfl, ?_⟩
    cases hs with
    | nil => rfl
    | line h => rfl
  | c :: rest => by
    rw [List.cons_append, skipComment, skipComment]
    split
    · exact skip_seam hs rest
    · exact skipComment_seam hs rest
termination_by text => text.length

end

end Text

namespace Reader

section

variable {s : List Char}

/-! ## Looking at what follows -/

theorem ne_newline_of_isMark {c : Char} (h : isMark c = true) : c ≠ '\n' := by
  rintro rfl
  cases h

theorem eat?_seam (hs : Seam s) {c : Char} (hc : c ≠ '\n') (text : List Char) :
    eat? c (text ++ s) = (eat? c text).map (· ++ s) := by
  cases text with
  | nil =>
    cases hs with
    | nil => rfl
    | line h => exact if_neg hc.symm
  | cons d rest =>
    rw [List.cons_append, eat?, eat?]
    split
    · rfl
    · rfl

/-- What is looked for past a gap is not found past a seam. -/
theorem look_seam {α : Type} (hs : Seam s) {look : List Char → Option α} {extend : α → α}
    (hnil : look [] = none)
    (hstart : ∀ text, startsAnew text = true → look (skip text) = none)
    (hlook : ∀ text, look (text ++ s) = (look text).map extend) (text : List Char) :
    look (skip (text ++ s)) = (look (skip text)).map extend := by
  rcases Text.skip_seam hs text with ⟨-, hskip⟩ | ⟨hnone, hskip⟩
  · rw [hskip, hlook]
  · rw [hskip, hnone, hnil]
    cases hs with
    | nil => exact hnil
    | line h => exact hstart _ h

theorem eat?_startsAnew {c : Char} (hc : isMark c = true) {text : List Char}
    (h : startsAnew text = true) : eat? c (skip text) = none := by
  obtain ⟨d, rest, htext, hd⟩ := head_startsAnew h
  rw [htext, eat?]
  refine if_neg ?_
  rintro rfl
  rcases hd with rfl | hd
  · cases hc
  · simp [isMark, hd] at hc

theorem eat?_skip_seam (hs : Seam s) {c : Char} (hc : isMark c = true) (text : List Char) :
    eat? c (skip (text ++ s)) = (eat? c (skip text)).map (· ++ s) :=
  look_seam hs rfl (fun _ h => eat?_startsAnew hc h)
    (eat?_seam hs (ne_newline_of_isMark hc)) text

theorem isSome_eat?_seam (hs : Seam s) {c : Char} (hc : c ≠ '\n') (text : List Char) :
    (eat? c (text ++ s)).isSome = (eat? c text).isSome := by
  rw [eat?_seam hs hc, Option.isSome_map]

theorem isSome_eat?_skip_seam (hs : Seam s) {c : Char} (hc : isMark c = true) (text : List Char) :
    (eat? c (skip (text ++ s))).isSome = (eat? c (skip text)).isSome := by
  rw [eat?_skip_seam hs hc, Option.isSome_map]

theorem eatUnless_seam (hs : Seam s) {c : Char} (hc : c ≠ '\n') {forbids : List Char → Bool}
    (hforbids : ∀ rest, forbids (rest ++ s) = forbids rest) (text : List Char) :
    eatUnless c forbids (text ++ s) = (eatUnless c forbids text).map (· ++ s) := by
  cases text with
  | nil =>
    cases hs with
    | nil => rfl
    | line h => simp [eatUnless, eat?, hc.symm]
  | cons d rest =>
    rw [eatUnless, eatUnless, List.cons_append, eat?, eat?]
    by_cases hd : d = c
    · simp only [if_pos hd, hforbids]
      split
      · rfl
      · rfl
    · simp only [if_neg hd, Option.map_none]

theorem eatText?_seam (hs : Seam s) {expected : List Char} (h : '\n' ∉ expected)
    (text : List Char) : eatText? expected (text ++ s) = (eatText? expected text).map (· ++ s) := by
  induction expected generalizing text with
  | nil => rfl
  | cons c cs ih =>
    rw [List.mem_cons, not_or] at h
    cases text with
    | nil =>
      cases hs with
      | nil => rfl
      | line _ => exact if_neg h.1
    | cons d rest =>
      rw [List.cons_append, eatText?, eatText?]
      split
      · exact ih h.2 rest
      · rfl

theorem eatArrow?_skip_seam (hs : Seam s) (text : List Char) :
    eatText? ['-', '>'] (skip (text ++ s)) = (eatText? ['-', '>'] (skip text)).map (· ++ s) := by
  refine look_seam hs rfl ?_ (eatText?_seam hs (by decide)) text
  intro text h
  obtain ⟨c, rest, htext, hc⟩ := head_startsAnew h
  rw [htext, eatText?]
  refine if_neg ?_
  rintro rfl
  rcases hc with hc | hc
  · cases hc
  · cases hc

/-! ## Words -/

/-- A class of characters that go on with a lexeme, and in which no newline is, ends at a seam. -/
theorem takeWhile_seam (hs : Seam s) {p : Char → Bool} (hp : p '\n' = false) (text : List Char) :
    (text ++ s).takeWhile p = text.takeWhile p ∧
      (text ++ s).dropWhile p = text.dropWhile p ++ s := by
  induction text with
  | nil =>
    cases hs with
    | nil => exact ⟨rfl, rfl⟩
    | line h => simp [hp]
  | cons c rest ih =>
    rw [List.cons_append]
    by_cases hc : p c = true
    · simp [hc, ih]
    · simp [hc]

theorem word?_seam (hs : Seam s) (text : List Char) :
    word? (text ++ s) = (word? text).map fun found => (found.1, found.2 ++ s) := by
  cases text with
  | nil =>
    cases hs with
    | nil => rfl
    | line h => rfl
  | cons c rest =>
    obtain ⟨htake, hdrop⟩ := takeWhile_seam hs (p := isWordPart) (by decide) rest
    rw [List.cons_append, word?, word?, htake, hdrop]
    split
    · rfl
    · rfl

theorem eatWord?_seam (hs : Seam s) (word : String) (text : List Char) :
    eatWord? word (text ++ s) = (eatWord? word text).map (· ++ s) := by
  rw [eatWord?, eatWord?, word?_seam hs]
  cases word? text with
  | none => rfl
  | some found =>
    simp only [Option.map_some]
    split
    · rfl
    · rfl

theorem eatElse?_skip_seam (hs : Seam s) (text : List Char) :
    eatWord? "else" (skip (text ++ s)) = (eatWord? "else" (skip text)).map (· ++ s) := by
  refine look_seam hs rfl ?_ (eatWord?_seam hs "else") text
  intro text h
  rw [← Option.not_isSome_iff_eq_none]
  intro hsome
  obtain ⟨rest, heat⟩ := Option.isSome_iff_exists.1 hsome
  exact word_startsAnew h (word?_of_eatWord? heat) (by decide)

end

/-! ## Comparing readings -/

/-- How the reading of a text compares with that of the text and what follows a seam, under a
larger bound: what was read is read there too, and the rest is longer by what follows, except
where the rest is in doubt; and if nothing follows, a fault is the same, unless the bound was
reached. -/
def Follows {α : Type} (s : List Char) (doubt : List Char → Prop) :
    Except Fault (α × List Char) → Except Fault (α × List Char) → Prop
  | .ok (value, rest), longer => longer = .ok (value, rest ++ s) ∨ (s ≠ [] ∧ doubt rest)
  | .error fault, longer => s = [] → fault.cause ≠ .exhausted → longer = .error fault

/-- No rest is in doubt. -/
def sure (_ : List Char) : Prop := False

/-- A reading leaves a rest in doubt, if it leaves one at all. -/
def Blocked {α : Type} (doubt : List Char → Prop) (read : Except Fault (α × List Char)) : Prop :=
  ∀ value rest, read = .ok (value, rest) → doubt rest

namespace Follows

variable {α β : Type} {s : List Char} {doubt doubt' : List Char → Prop}

theorem ok (value : α) (rest : List Char) :
    Follows s doubt (.ok (value, rest)) (.ok (value, rest ++ s)) := Or.inl rfl

theorem error {fault : Fault} {longer : Except Fault (α × List Char)}
    (h : s = [] → longer = .error fault) : Follows s doubt (.error fault) longer :=
  fun hs _ => h hs

theorem exhausted {rest : List Char} {longer : Except Fault (α × List Char)} :
    Follows s doubt (Reader.fault .exhausted rest) longer :=
  fun _ hcause => absurd rfl hcause

theorem fault (cause : Cause) (rest : List Char) :
    Follows (α := α) s doubt (Reader.fault cause rest) (Reader.fault cause (rest ++ s)) :=
  error fun hs => by rw [hs, List.append_nil]; rfl

/-- A reader that has no bound. -/
theorem of_ok {reader : Reader α} {text : List Char}
    (h : ∀ value rest, reader text = .ok (value, rest) →
      reader (text ++ s) = .ok (value, rest ++ s)) :
    Follows s doubt (reader text) (reader (text ++ s)) := by
  cases hread : reader text with
  | ok found => exact Or.inl (h found.1 found.2 hread)
  | error fault => exact error fun hs => by rw [hs, List.append_nil, hread]

theorem mono {read longer : Except Fault (α × List Char)} (h : Follows s doubt read longer)
    (hdoubt : ∀ rest, doubt rest → doubt' rest) : Follows s doubt' read longer := by
  cases read with
  | ok found => exact h.imp id (fun hrest => ⟨hrest.1, hdoubt _ hrest.2⟩)
  | error fault => exact h

/-- What is read after something else. Where the first rest is in doubt, nothing may be read that
leaves another one. -/
theorem bind {read longer : Except Fault (α × List Char)}
    {next next' : α × List Char → Except Fault (β × List Char)} (h : Follows s doubt read longer)
    (hnext : ∀ value rest, Follows s doubt' (next (value, rest)) (next' (value, rest ++ s)))
    (hblocked : ∀ value rest, doubt rest → Blocked doubt' (next (value, rest))) :
    Follows s doubt' (read >>= next) (longer >>= next') := by
  cases read with
  | error fault => exact fun hs hcause => by rw [h hs hcause]; rfl
  | ok found =>
    obtain ⟨value, rest⟩ := found
    rcases h with rfl | ⟨hs, hrest⟩
    · exact hnext value rest
    · have hnone := hblocked value rest hrest
      change Follows s doubt' (next (value, rest)) _
      cases hread : next (value, rest) with
      | ok found => exact Or.inr ⟨hs, hnone found.1 found.2 hread⟩
      | error fault => exact error fun hnil => absurd hnil hs

/-- What is read after something that leaves no rest in doubt. -/
theorem bindSure {read longer : Except Fault (α × List Char)}
    {next next' : α × List Char → Except Fault (β × List Char)} (h : Follows s sure read longer)
    (hnext : ∀ value rest, Follows s doubt (next (value, rest)) (next' (value, rest ++ s))) :
    Follows s doubt (read >>= next) (longer >>= next') :=
  h.bind hnext fun _ _ hrest => hrest.elim

/-- Where nothing follows, a reading that does not stop at its bound is the reading under a larger
bound. -/
theorem eq_of_takes {least : Nat} {good : α → Prop} {text : List Char}
    {read longer : Except Fault (α × List Char)} (h : Follows [] doubt read longer)
    (htakes : Takes least good text read) : longer = read := by
  cases read with
  | error fault => exact h rfl htakes.2
  | ok found =>
    rcases h with hlonger | ⟨hne, -⟩
    · rw [hlonger, List.append_nil]
    · exact absurd rfl hne

end Follows

theorem error_ne_ok {α : Type} (fault : Fault) (found : α) : Except.error fault ≠ .ok found := by
  intro h
  cases h

theorem Blocked.of_fails {α : Type} {doubt : List Char → Prop}
    {read : Except Fault (α × List Char)} (h : ∀ found, read ≠ .ok found) : Blocked doubt read :=
  fun value rest hread => absurd hread (h (value, rest))

theorem expect_ne_ok {α : Type} {c : Char} {text : List Char}
    {next : List Char → Except Fault (α × List Char)} (h : eat? c text = none)
    (found : α × List Char) : expect c text >>= next ≠ .ok found := by
  rw [expect, h]
  exact error_ne_ok _ found

theorem Blocked.expect {α : Type} {doubt : List Char → Prop} {c : Char} {text : List Char}
    {next : List Char → Except Fault (α × List Char)} (h : eat? c text = none) :
    Blocked doubt (expect c text >>= next) :=
  Blocked.of_fails (expect_ne_ok h)

/-! ## Readers -/

/-- A reader that reads a text up to a seam as it reads the text alone, and reads nothing where
there is no text. -/
structure Local {α : Type} (s : List Char) (doubt : List Char → Prop) (reader longer : Reader α) :
    Prop where
  follows : ∀ text, Follows s doubt (reader text) (longer (text ++ s))
  nil : ∀ found, reader [] ≠ .ok found

section

variable {α β : Type} {s : List Char} {doubt doubt' : List Char → Prop} {reader longer : Reader α}

theorem Local.mono (h : Local s doubt reader longer) (hdoubt : ∀ rest, doubt rest → doubt' rest) :
    Local s doubt' reader longer :=
  ⟨fun text => (h.follows text).mono hdoubt, h.nil⟩

/-- What is read past a gap: where the text ends with the gap, nothing was read. -/
theorem Local.skip (h : Local s doubt reader longer) (hs : Seam s) (text : List Char) :
    Follows s doubt (reader (skip text)) (longer (skip (text ++ s))) := by
  rcases Text.skip_seam hs text with ⟨-, hskip⟩ | ⟨hnone, hskip⟩
  · rw [hskip]
    exact h.follows (Text.skip text)
  · rw [hskip, hnone]
    have hnil := h.follows []
    cases hread : reader [] with
    | ok found => exact absurd hread (h.nil found)
    | error fault =>
      rw [hread] at hnil
      intro hs hcause
      subst hs
      exact hnil rfl hcause

/-- What is read after something that is not there. -/
theorem bind_ne_ok {read : Except Fault α} {next : α → Except Fault β}
    (h : ∀ a, read ≠ .ok a) (b : β) : read >>= next ≠ .ok b := by
  cases read with
  | ok a => exact absurd rfl (h a)
  | error fault => exact error_ne_ok fault b

theorem Local.bind {next next' : α × List Char → Except Fault (β × List Char)}
    (h : Local s doubt reader longer)
    (hnext : ∀ value rest, Follows s doubt' (next (value, rest)) (next' (value, rest ++ s)))
    (hblocked : ∀ value rest, doubt rest → Blocked doubt' (next (value, rest))) :
    Local s doubt' (fun text => reader text >>= next) fun text => longer text >>= next' :=
  ⟨fun text => (h.follows text).bind hnext hblocked, bind_ne_ok h.nil⟩

end

section

variable {α : Type} {s : List Char} {doubt : List Char → Prop}

/-! ## Lexemes -/

theorem Follows.expect (hs : Seam s) {c : Char} (hc : c ≠ '\n') (text : List Char)
    {next next' : List Char → Except Fault (α × List Char)}
    (hnext : ∀ rest, Follows s doubt (next rest) (next' (rest ++ s))) :
    Follows s doubt (Reader.expect c text >>= next) (Reader.expect c (text ++ s) >>= next') := by
  rw [Reader.expect, Reader.expect, eat?_seam hs hc]
  cases eat? c text with
  | none => exact Follows.fault _ text
  | some rest => exact hnext rest

theorem Follows.expectSkip (hs : Seam s) {c : Char} (hc : c ≠ '\n') (text : List Char)
    {next next' : List Char → Except Fault (α × List Char)}
    (hnext : ∀ rest, Follows s doubt (next rest) (next' (rest ++ s))) :
    Follows s doubt (Reader.expect c (skip text) >>= next)
      (Reader.expect c (skip (text ++ s)) >>= next') := by
  have hlocal : Local s doubt (fun text => Reader.expect c text >>= next)
      fun text => Reader.expect c text >>= next' :=
    ⟨fun text => Follows.expect hs hc text hnext, expect_ne_ok rfl⟩
  exact hlocal.skip hs text

theorem Follows.expectBlank (hs : Seam s) (after : String) (text : List Char)
    {next next' : Reader α} (hnext : Local s doubt next next') :
    Follows s doubt (Reader.expectBlank after text >>= next)
      (Reader.expectBlank after (text ++ s) >>= next') := by
  cases text with
  | nil =>
    refine Follows.error fun hnil => ?_
    rw [hnil]
    rfl
  | cons c rest =>
    rw [List.cons_append, Reader.expectBlank, Reader.expectBlank]
    split
    · exact hnext.skip hs rest
    · exact Follows.fault _ (c :: rest)

theorem Follows.expectWord (hs : Seam s) (word : String) (text : List Char)
    {next next' : List Char → Except Fault (α × List Char)}
    (hnext : ∀ rest, Follows s doubt (next rest) (next' (rest ++ s))) :
    Follows s doubt (Reader.expectWord word text >>= next)
      (Reader.expectWord word (text ++ s) >>= next') := by
  rw [Reader.expectWord, Reader.expectWord, eatWord?_seam hs]
  cases eatWord? word text with
  | none => exact Follows.fault _ text
  | some rest => exact hnext rest

theorem local_identifier (hs : Seam s) : Local s sure identifier identifier := by
  refine ⟨fun text => Follows.of_ok ?_, error_ne_ok _⟩
  intro x rest hread
  rw [identifier] at hread ⊢
  rw [word?_seam hs]
  cases hword : word? text with
  | none =>
    rw [hword] at hread
    cases hread
  | some found =>
    rw [hword] at hread
    cases hread
    rfl

theorem numeralRun?_seam (hs : Seam s) (text : List Char) :
    numeralRun? (text ++ s) = (numeralRun? text).map fun found => (found.1, found.2 ++ s) := by
  have hbody : ∀ text : List Char,
      (text ++ s).takeWhile isNumeralPart = text.takeWhile isNumeralPart ∧
      (text ++ s).dropWhile isNumeralPart = text.dropWhile isNumeralPart ++ s :=
    takeWhile_seam hs (by decide)
  cases text with
  | nil =>
    cases hs with
    | nil => rfl
    | line h => rfl
  | cons c rest =>
    have hsign : ((c :: rest) ++ s).take 1 = (c :: rest).take 1 := rfl
    have hdrop : ∀ k ≤ 1, ((c :: rest) ++ s).drop k = (c :: rest).drop k ++ s := by
      intro k hk
      exact List.drop_append_of_le_length (Nat.le_trans hk (by simp))
    have hlength : (((c :: rest).take 1).filter (· == '-')).length ≤ 1 :=
      Nat.le_trans (List.length_filter_le _ _) (by simp)
    simp only [numeralRun?, hsign, hdrop _ hlength, hbody]
    split
    · rfl
    · rfl

theorem local_numeral (hs : Seam s) : Local s sure numeral numeral := by
  refine ⟨fun text => Follows.of_ok ?_, error_ne_ok _⟩
  intro found rest hread
  rw [numeral] at hread ⊢
  rw [numeralRun?_seam hs]
  cases hrun : numeralRun? text with
  | none =>
    rw [hrun] at hread
    cases hread
  | some parts =>
    obtain ⟨run, more⟩ := parts
    simp only [hrun, Option.map_some] at hread ⊢
    cases hvalue : Numeral.ofText? run with
    | none =>
      simp only [hvalue] at hread
      cases hread
    | some value =>
      simp only [hvalue] at hread ⊢
      cases hread
      rfl

theorem withChar_eq_ok {c : Char} {read : Except Fault (List Char × List Char)}
    {content rest : List Char} (h : withChar c read = .ok (content, rest)) :
    ∃ tail, content = c :: tail ∧ read = .ok (tail, rest) := by
  cases read with
  | error fault => cases h
  | ok found =>
    cases h
    exact ⟨found.1, rfl, rfl⟩

/-- What is read of a string is not changed by what follows its closing quote, nor by where it is
said to start. -/
theorem stringTail_append {opening opening' text content rest : List Char}
    (h : stringTail opening text = .ok (content, rest)) (more : List Char) :
    stringTail opening' (text ++ more) = .ok (content, rest ++ more) := by
  fun_induction stringTail opening text generalizing content with
  | case1 => cases h
  | case2 rest =>
    cases h
    rw [List.cons_append, stringTail.eq_def]
    exact if_pos rfl
  | case3 rest => cases h
  | case4 => cases h
  | case5 h₁ h₂ h₃ h₄ after code hcode _ _ ih =>
    obtain ⟨tail, rfl, hread⟩ := withChar_eq_ok h
    have hlonger := ih hread
    rw [List.cons_append, stringTail.eq_def]
    simp only [List.cons_append, if_neg (show ¬ '\\' = '"' by decide),
      if_neg (show ¬ '\\' = '\n' by decide), if_true, hcode, hlonger]
    rfl
  | case6 h₁ h₂ h₃ h₄ after hcode => cases h
  | case7 digits hshort => cases h
  | case8 c after hc _ _ ih =>
    obtain ⟨tail, rfl, hread⟩ := withChar_eq_ok h
    have hlonger := ih hread
    rw [List.cons_append, stringTail.eq_def]
    simp only [List.cons_append, if_neg (show ¬ '\\' = '"' by decide),
      if_neg (show ¬ '\\' = '\n' by decide), if_true, hlonger]
    rfl
  | case9 c rest hquote hnewline hback ih =>
    obtain ⟨tail, rfl, hread⟩ := withChar_eq_ok h
    have hlonger := ih hread
    rw [List.cons_append, stringTail.eq_def]
    simp only [if_neg hquote, if_neg hnewline, if_neg hback, hlonger]
    rfl

theorem local_string (hs : Seam s) : Local s sure string string := by
  refine ⟨fun text => Follows.of_ok ?_, error_ne_ok _⟩
  intro content rest hread
  rw [string] at hread ⊢
  rw [expect, eat?_seam hs (by decide)]
  rw [expect] at hread
  cases heat : eat? '"' text with
  | none =>
    rw [heat] at hread
    cases hread
  | some more =>
    rw [heat] at hread
    simp only [Option.map_some, bind, Except.bind] at hread ⊢
    cases htail : stringTail text more with
    | error fault =>
      rw [htail] at hread
      cases hread
    | ok found =>
      rw [htail] at hread
      rw [stringTail_append htail s]
      cases hread
      rfl

end

end Reader

end Dialogue
