import Dialogue.Proofs.Nesting.Lexeme

/-!
# Strings without an end

A string ends at a quote, on the line where it is opened unless a backslash stands before the
newline. `Text.stringEnd` says how the string after an opening quote ends, and `Text.Opens` finds
the first string of a text that has no end, passing over comments and whole strings.

A reader is `Reporting` if it passes over no such string, and if the fault that it gives for one
lies at the opening quote. There is one exception: in a text that ends right after a backslash, the
fault lies at the end (`Text.reportedAt`). This module has the property for gaps and lexemes.
-/

namespace Dialogue

open Text (scan isBlank skip skipComment hexValue? hexCode?)

namespace Text

/-! ## How strings end -/

/-- How a string ends: at a quote before the given rest, not before the end of its line or of the
text, or not because the text ends right after a backslash. -/
inductive StringEnd where
  | closed (rest : List Char)
  | missing
  | escaping
  deriving DecidableEq, Repr

/-- How a string ends, given what follows its opening quote. -/
def stringEnd : List Char → StringEnd
  | [] => .missing
  | c :: rest =>
    if c = '"' then .closed rest
    else if c = '\n' then .missing
    else if c = '\\' then
      match rest with
      | [] => .escaping
      | _ :: after => stringEnd after
    else stringEnd rest

theorem stringEnd_quote (rest : List Char) : stringEnd ('"' :: rest) = .closed rest := by
  rw [stringEnd.eq_def]
  rfl

theorem stringEnd_newline (rest : List Char) : stringEnd ('\n' :: rest) = .missing := by
  rw [stringEnd.eq_def]
  rfl

theorem stringEnd_cons {c : Char} (hquote : c ≠ '"') (hnewline : c ≠ '\n') (hback : c ≠ '\\')
    (rest : List Char) : stringEnd (c :: rest) = stringEnd rest := by
  rw [stringEnd.eq_def]
  simp only [if_neg hquote, if_neg hnewline, if_neg hback]

theorem stringEnd_escape (c : Char) (rest : List Char) :
    stringEnd ('\\' :: c :: rest) = stringEnd rest := by
  rw [stringEnd.eq_def]
  rfl

/-- A string can end in escaping at the end of the text only. -/
theorem eq_append_of_escaping {body : List Char} (h : stringEnd body = .escaping) :
    ∃ content, body = content ++ ['\\'] := by
  fun_induction stringEnd body with
  | case1 => cases h
  | case2 => cases h
  | case3 => cases h
  | case4 => exact ⟨[], rfl⟩
  | case5 c after _ _ ih =>
    obtain ⟨content, rfl⟩ := ih h
    exact ⟨'\\' :: c :: content, rfl⟩
  | case6 c after _ _ _ ih =>
    obtain ⟨content, rfl⟩ := ih h
    exact ⟨c :: content, rfl⟩

/-- A string with an end is passed over as a string. -/
theorem scan_string_of_closed {body rest : List Char} (h : stringEnd body = .closed rest) :
    ∃ content, body = content ++ rest ∧
      ∀ more, scan .string (content ++ more) = scan .code more := by
  fun_induction stringEnd body with
  | case1 => cases h
  | case2 after =>
    cases h
    exact ⟨['"'], rfl, fun more => rfl⟩
  | case3 => cases h
  | case4 => cases h
  | case5 c after _ _ ih =>
    obtain ⟨content, rfl, hscan⟩ := ih h
    exact ⟨'\\' :: c :: content, rfl, hscan⟩
  | case6 c after hquote hnewline hback ih =>
    obtain ⟨content, rfl, hscan⟩ := ih h
    refine ⟨c :: content, rfl, fun more => ?_⟩
    rw [List.cons_append, scan_string_cons hquote hback, hscan]

/-! ## The first string without an end -/

/-- The first string without an end of a text that starts as code, and the text from its opening
quote on. -/
inductive Opens : List Char → List Char → Prop where
  | here {body : List Char} (endless : ∀ rest, stringEnd body ≠ .closed rest) :
    Opens ('"' :: body) ('"' :: body)
  | string {body rest opening : List Char} (closed : stringEnd body = .closed rest) :
    Opens rest opening → Opens ('"' :: body) opening
  | comment {rest opening : List Char} :
    Opens (rest.dropWhile (· != '\n')) opening → Opens ('/' :: '/' :: rest) opening
  | code {c : Char} {rest opening : List Char} (quote : c ≠ '"')
    (slash : ∀ more, c :: rest ≠ '/' :: '/' :: more) :
    Opens rest opening → Opens (c :: rest) opening

/-- There is one first string without an end. -/
theorem Opens.unique {text opening opening' : List Char} (h : Opens text opening)
    (h' : Opens text opening') : opening' = opening := by
  induction h with
  | here hopen =>
    cases h' with
    | here => rfl
    | string hclosed => exact absurd hclosed (hopen _)
    | code hquote => exact absurd rfl hquote
  | string hclosed _ ih =>
    cases h' with
    | here hopen => exact absurd hclosed (hopen _)
    | string hclosed' hrest =>
      rw [hclosed] at hclosed'
      cases hclosed'
      exact ih hrest
    | code hquote => exact absurd rfl hquote
  | comment _ ih =>
    cases h' with
    | comment hrest => exact ih hrest
    | code _ hslash => exact absurd rfl (hslash _)
  | code hquote hslash _ ih =>
    cases h' with
    | here => exact absurd rfl hquote
    | string => exact absurd rfl hquote
    | comment => exact absurd rfl (hslash _)
    | code _ _ hrest => exact ih hrest

/-- A comment up to its newline, with what is code behind it. -/
theorem scan_comment_of_dropWhile {text before body : List Char}
    (h : text.dropWhile (· != '\n') = before ++ '"' :: body) (hscan : scan .code before = .code) :
    ∃ comment, text = comment ++ before ++ '"' :: body ∧
      scan .comment (comment ++ before) = .code := by
  induction text with
  | nil => exact absurd h.symm (List.append_ne_nil_of_right_ne_nil _ (List.cons_ne_nil _ _))
  | cons c text ih =>
    by_cases hc : c = '\n'
    · rw [List.dropWhile_cons, if_neg (by simp [hc])] at h
      cases before with
      | nil => exact absurd (hc.symm.trans (List.cons.inj h).1) (by decide)
      | cons d before =>
        obtain ⟨rfl, htext⟩ := List.cons.inj h
        refine ⟨[], by rw [htext]; rfl, ?_⟩
        rw [List.nil_append, scan, if_pos hc]
        rwa [hc, scan_code_of_ne (by decide)] at hscan
    · rw [List.dropWhile_cons, if_pos (by simp [hc])] at h
      obtain ⟨comment, rfl, hcomment⟩ := ih h
      refine ⟨c :: comment, rfl, ?_⟩
      rw [List.cons_append, scan, if_neg hc, hcomment]

/-- The opening quote stands in code, and the string after it has no end. -/
theorem Opens.exists_before {text opening : List Char} (h : Opens text opening) :
    ∃ before body, opening = '"' :: body ∧ text = before ++ '"' :: body ∧
      scan .code before = .code ∧ ∀ rest, stringEnd body ≠ .closed rest := by
  induction h with
  | @here body hopen => exact ⟨[], body, rfl, rfl, rfl, hopen⟩
  | string hclosed _ ih =>
    obtain ⟨before, body, hopening, rfl, hscan, hopen⟩ := ih
    obtain ⟨content, rfl, hcontent⟩ := scan_string_of_closed hclosed
    refine ⟨'"' :: (content ++ before), body, hopening, ?_, ?_, hopen⟩
    · rw [List.cons_append, List.append_assoc]
    · exact (hcontent before).trans hscan
  | comment _ ih =>
    obtain ⟨before, body, hopening, hrest, hscan, hopen⟩ := ih
    obtain ⟨comment, rfl, hcomment⟩ := scan_comment_of_dropWhile hrest hscan
    exact ⟨'/' :: '/' :: (comment ++ before), body, hopening, rfl, hcomment, hopen⟩
  | @code c rest _ hquote hslash _ ih =>
    obtain ⟨before, body, hopening, rfl, hscan, hopen⟩ := ih
    refine ⟨c :: before, body, hopening, rfl, ?_, hopen⟩
    rw [scan_code_cons hquote, hscan]
    intro more heq
    obtain ⟨rfl, rfl⟩ := List.cons.inj heq
    exact hslash _ rfl

/-! ## Text that is passed over -/

/-- A character that starts neither a string nor a comment. -/
def isOrdinary (c : Char) : Bool := c != '"' && c != '/'

theorem isOrdinary_of_isInert {c : Char} (h : isInert c = true) : isOrdinary c = true := by
  rw [isInert, Bool.and_eq_true] at h
  exact h.1

/-- Nothing is passed over between two places of a text but code with whole strings: a string
without an end is still ahead. -/
def Passes (text rest : List Char) : Prop := ∀ ⦃opening⦄, Opens rest opening → Opens text opening

namespace Passes

variable {text middle rest : List Char} {c : Char}

theorem refl (text : List Char) : Passes text text := fun _ h => h

theorem trans (h : Passes text middle) (h' : Passes middle rest) : Passes text rest :=
  fun _ hopening => h (h' hopening)

theorem cons (hquote : c ≠ '"') (hslash : ∀ more, c :: rest ≠ '/' :: '/' :: more) :
    Passes (c :: rest) rest := fun _ h => .code hquote hslash h

theorem ordinary (hc : isOrdinary c = true) : Passes (c :: rest) rest := by
  rw [isOrdinary, Bool.and_eq_true, bne_iff_ne, bne_iff_ne] at hc
  exact cons hc.1 fun _ heq => hc.2 (List.cons.inj heq).1

theorem append {front : List Char} (hfront : ∀ c ∈ front, isOrdinary c = true) :
    Passes (front ++ rest) rest := by
  induction front with
  | nil => exact refl rest
  | cons c front ih =>
    obtain ⟨hc, hothers⟩ := List.forall_mem_cons.1 hfront
    exact (ordinary hc).trans (ih hothers)

mutual

theorem skip : ∀ text : List Char, Passes text (Text.skip text)
  | [] => refl []
  | c :: rest => by
    rcases skip_cons_cases c rest with ⟨more, heq, hskip⟩ | ⟨hblank, hskip⟩ | ⟨hskip, -⟩
    · have hlength : more.length ≤ rest.length := by
        rw [(List.cons.inj heq).2, List.length_cons]
        omega
      rw [hskip, heq]
      exact fun _ h => .comment (skipComment more h)
    · rw [hskip]
      exact (ordinary (isOrdinary_of_isInert (isInert_of (by decide) hblank))).trans (skip rest)
    · rw [hskip]
      exact refl _
termination_by text => text.length

theorem skipComment : ∀ text : List Char,
    Passes (text.dropWhile (· != '\n')) (Text.skipComment text)
  | [] => refl []
  | c :: rest => by
    rw [Text.skipComment]
    by_cases hc : c = '\n'
    · rw [if_pos hc, List.dropWhile_cons, if_neg (by simp [hc]), hc]
      exact (ordinary (by decide)).trans (skip rest)
    · rw [if_neg hc, List.dropWhile_cons, if_pos (by simp [hc])]
      exact skipComment rest
termination_by text => text.length

end

end Passes

/-- What is left of a text where a string without an end is reported: the text from its opening
quote on, or nothing if the text ends right after a backslash. -/
def reportedAt (body : List Char) : List Char :=
  if stringEnd body = .escaping then [] else '"' :: body

theorem reportedAt_of_missing {body : List Char} (h : stringEnd body = .missing) :
    reportedAt body = '"' :: body := by
  rw [reportedAt, if_neg (by simp [h])]

theorem reportedAt_of_escaping {body : List Char} (h : stringEnd body = .escaping) :
    reportedAt body = [] := by
  rw [reportedAt, if_pos h]

theorem ne_newline_of_hexCode? {a b c d : Char} {code : Nat} (h : hexCode? a b c d = some code) :
    ∀ e ∈ [a, b, c, d], e ≠ '\n' := by
  have hvalue : ∀ {e : Char} {n : Nat}, hexValue? e = some n → e ≠ '\n' := by
    rintro e n hn rfl
    cases hn
  simp only [hexCode?, Option.bind_eq_bind, Option.bind_eq_some_iff] at h
  obtain ⟨_, ha, _, hb, _, hc, _, hd, -⟩ := h
  simp only [List.forall_mem_cons]
  exact ⟨hvalue ha, hvalue hb, hvalue hc, hvalue hd, by simp⟩

end Text

open Text (Opens Passes StringEnd stringEnd reportedAt isOrdinary isOrdinary_of_isInert)

namespace Reader

/-! ## Readings -/

/-- What a reading of a text says of strings without an end: it passes over none, or it fails, and a
fault about one is where the first one is reported. -/
def Reports {α : Type} (text : List Char) : Except Fault (α × List Char) → Prop
  | .ok (_, rest) => Passes text rest
  | .error fault => fault.cause = .unterminatedString →
    ∃ body, Opens text ('"' :: body) ∧ fault.rest = reportedAt body

/-- A reader that reports strings without an end, whatever it reads. -/
def Reporting {α : Type} (reader : Reader α) : Prop := ∀ text, Reports text (reader text)

namespace Reports

variable {α β : Type} {text inner : List Char}

theorem ok {value : α} {rest : List Char} (h : Passes text rest) :
    Reports text (.ok (value, rest)) := h

theorem fault {cause : Cause} {rest : List Char} (hcause : cause ≠ .unterminatedString) :
    Reports (α := α) text (Reader.fault cause rest) := fun h => absurd h hcause

/-- A reading of what is left of a text is a reading of the text. -/
theorem within {read : Except Fault (α × List Char)} (h : Reports inner read)
    (hinner : Passes text inner) : Reports text read := by
  cases read with
  | ok found => exact hinner.trans h
  | error fault =>
    intro hcause
    obtain ⟨body, hbody, hrest⟩ := h hcause
    exact ⟨body, hinner hbody, hrest⟩

/-- What is read after something else. -/
theorem bind {read : Except Fault (α × List Char)}
    {next : α × List Char → Except Fault (β × List Char)} (hinner : Passes text inner)
    (h : Reports inner read)
    (hnext : ∀ value rest, Passes text rest → Reports text (next (value, rest))) :
    Reports text (read >>= next) := by
  have hread := h.within hinner
  cases read with
  | ok found => exact hnext found.1 found.2 hread
  | error fault => exact hread

/-- What is read after a character that starts neither a string nor a comment. -/
theorem expect {c : Char} {next : List Char → Except Fault (α × List Char)}
    (hinner : Passes text inner) (hc : isOrdinary c = true)
    (hnext : ∀ rest, Passes text rest → Reports text (next rest)) :
    Reports text (expect c inner >>= next) := by
  rw [Reader.expect]
  cases heat : eat? c inner with
  | none => exact fault (by simp)
  | some rest =>
    rw [eat?_eq_some heat] at hinner
    exact hnext rest (hinner.trans (Passes.ordinary hc))

/-- What is read after a blank. -/
theorem expectBlank {after : String} {next : List Char → Except Fault (α × List Char)}
    (hinner : Passes text inner)
    (hnext : ∀ rest, Passes text rest → Reports text (next rest)) :
    Reports text (expectBlank after inner >>= next) := by
  cases inner with
  | nil => exact fault (by simp)
  | cons c rest =>
    rw [Reader.expectBlank]
    split
    · rename_i hblank
      have hc := isOrdinary_of_isInert (Text.isInert_of (by decide) hblank)
      exact hnext (skip rest) (hinner.trans ((Passes.ordinary hc).trans (Passes.skip rest)))
    · exact fault (by simp)

end Reports

/-! ## Fixed texts and words -/

section

variable {text rest : List Char}

theorem passes_of_eat? {c : Char} (h : eat? c text = some rest) (hc : isOrdinary c = true) :
    Passes text rest := by
  rw [eat?_eq_some h]
  exact Passes.ordinary hc

theorem passes_of_eatUnless {c : Char} {forbids : List Char → Bool}
    (h : eatUnless c forbids text = some rest) (hc : isOrdinary c = true) : Passes text rest := by
  rw [eatUnless] at h
  split at h
  · rename_i more heat
    split at h
    · cases h
    · rw [← Option.some.inj h]
      exact passes_of_eat? heat hc
  · cases h

theorem passes_of_eatText? {expected : List Char} (h : eatText? expected text = some rest)
    (hexpected : expected.all isOrdinary = true) : Passes text rest := by
  rw [eatText?_eq_some h]
  exact Passes.append (List.all_eq_true.1 hexpected)

theorem passes_of_word? {x : String} (h : word? text = some (x, rest)) : Passes text rest := by
  obtain ⟨hx, rfl⟩ := word?_eq_some h
  exact Passes.append fun c hc => isOrdinary_of_isInert (isInert_of_isSymbol hx c hc)

theorem passes_of_eatWord? {word : String} (h : eatWord? word text = some rest) :
    Passes text rest := passes_of_word? (word?_of_eatWord? h)

end

/-- What is read after a given word. -/
theorem Reports.expectWord {α : Type} {word : String} {text inner : List Char}
    {next : List Char → Except Fault (α × List Char)} (hinner : Passes text inner)
    (hnext : ∀ rest, Passes text rest → Reports text (next rest)) :
    Reports text (expectWord word inner >>= next) := by
  rw [Reader.expectWord]
  cases heat : eatWord? word inner with
  | none => exact Reports.fault (by simp)
  | some rest => exact hnext rest (hinner.trans (passes_of_eatWord? heat))

theorem reporting_exhausted {α : Type} : Reporting (fault .exhausted : Reader α) :=
  fun _ => Reports.fault (by simp)

theorem reporting_identifier : Reporting identifier := by
  intro text
  rw [identifier]
  cases hword : word? text with
  | none => exact Reports.fault (by simp)
  | some found => exact Reports.ok (passes_of_word? hword)

/-! ## Numerals and strings -/

theorem reporting_numeral : Reporting numeral := by
  intro text
  rw [numeral]
  split
  · exact Reports.fault (by simp)
  · rename_i run rest hrun
    split
    · apply Reports.ok
      rw [(numeralRun?_eq_some hrun).2]
      exact Passes.append fun c hc => isOrdinary_of_isInert (isInert_of_numeralRun? hrun c hc)
    · exact Reports.fault (by simp)

/-- A reading of the remainder of a string, by how the string ends. -/
def EndsString (opening text : List Char) : Except Fault (List Char × List Char) → Prop
  | .ok (_, rest) => stringEnd text = .closed rest
  | .error fault => fault.cause = .unterminatedString →
    (∀ rest, stringEnd text ≠ .closed rest) ∧
      fault.rest = if stringEnd text = .escaping then [] else opening

theorem EndsString.withChar {opening text inner : List Char} {c : Char}
    {read : Except Fault (List Char × List Char)} (h : EndsString opening inner read)
    (heq : stringEnd text = stringEnd inner) : EndsString opening text (withChar c read) := by
  cases read with
  | ok found => exact heq.trans h
  | error fault =>
    intro hcause
    rw [heq]
    exact h hcause

theorem endsString_tail (opening text : List Char) :
    EndsString opening text (stringTail opening text) := by
  fun_induction stringTail opening text with
  | case1 => exact fun _ => ⟨by simp [stringEnd], rfl⟩
  | case2 rest => exact Text.stringEnd_quote rest
  | case3 rest => exact fun _ => by simp [Text.stringEnd_newline]
  | case4 => exact fun _ => ⟨by simp [stringEnd], rfl⟩
  | case5 h₁ h₂ h₃ h₄ after code hcode _ _ ih =>
    have hne := Text.ne_of_hexCode? hcode
    have hnewline := Text.ne_newline_of_hexCode? hcode
    simp only [List.forall_mem_cons] at hne hnewline
    obtain ⟨⟨hq₁, hb₁⟩, ⟨hq₂, hb₂⟩, ⟨hq₃, hb₃⟩, ⟨hq₄, hb₄⟩, -⟩ := hne
    obtain ⟨hn₁, hn₂, hn₃, hn₄, -⟩ := hnewline
    apply ih.withChar
    calc stringEnd ('\\' :: 'u' :: h₁ :: h₂ :: h₃ :: h₄ :: after)
      _ = stringEnd (h₁ :: h₂ :: h₃ :: h₄ :: after) := Text.stringEnd_escape 'u' _
      _ = stringEnd (h₂ :: h₃ :: h₄ :: after) := Text.stringEnd_cons hq₁ hn₁ hb₁ _
      _ = stringEnd (h₃ :: h₄ :: after) := Text.stringEnd_cons hq₂ hn₂ hb₂ _
      _ = stringEnd (h₄ :: after) := Text.stringEnd_cons hq₃ hn₃ hb₃ _
      _ = stringEnd after := Text.stringEnd_cons hq₄ hn₄ hb₄ _
  | case6 => exact fun hcause => nomatch hcause
  | case7 => exact fun hcause => nomatch hcause
  | case8 c after _ _ _ ih => exact ih.withChar (Text.stringEnd_escape c after)
  | case9 c rest hquote hnewline hback ih =>
    exact ih.withChar (Text.stringEnd_cons hquote hnewline hback rest)

theorem reporting_string : Reporting string := by
  intro text
  rw [string]
  cases heat : eat? '"' text with
  | none =>
    rw [expect, heat]
    exact Reports.fault (by simp)
  | some body =>
    rw [expect, heat, eat?_eq_some heat]
    have hends := endsString_tail ('"' :: body) body
    dsimp only [bind, Except.bind]
    cases hread : stringTail ('"' :: body) body with
    | ok found =>
      rw [hread] at hends
      exact Reports.ok fun _ h => .string hends h
    | error fault =>
      rw [hread] at hends
      intro hcause
      obtain ⟨hopen, hrest⟩ := hends hcause
      exact ⟨body, .here hopen, hrest⟩

end Reader

end Dialogue
