import Dialogue.Proofs.Gap.Expression

/-!
# Brackets

`Text.brackets` lists the brackets of a text that are code, and `Balanced` says that such a list is
properly nested. Reading closes a bracket long after it has opened it, so what holds along the way
is said with the brackets that are *awaited*: a text is `Closed` under them if it closes each in
turn, with balanced brackets in between, and does not end inside a string.

A reader is `Nesting` if closing what it leaves behind is enough to close what it was given, and
`Closing` if it also reads an awaited bracket. This module has the two for gaps and lexemes.
-/

namespace Dialogue

open Text (Mode scan isBlank skip skipComment isPlain hexCode?)

namespace Text

/-! ## Brackets in code -/

/-- The brackets that open, with those that close them. -/
def bracketPairs : List (Char × Char) := [('{', '}'), ('[', ']'), ('(', ')')]

theorem braces_mem : ('{', '}') ∈ bracketPairs := by decide

theorem squares_mem : ('[', ']') ∈ bracketPairs := by decide

theorem parentheses_mem : ('(', ')') ∈ bracketPairs := by decide

/-- Whether a character is a bracket. -/
def isBracket (c : Char) : Bool := bracketPairs.any fun pair => c == pair.1 || c == pair.2

/-- The brackets of a text that stand outside strings and comments. -/
def brackets : Mode → List Char → List Char
  | _, [] => []
  | .code, '/' :: '/' :: rest => brackets .comment rest
  | .code, c :: rest =>
    if c = '"' then brackets .string rest
    else if isBracket c then c :: brackets .code rest
    else brackets .code rest
  | .string, '\\' :: _ :: rest => brackets .string rest
  | .string, c :: rest => if c = '"' then brackets .code rest else brackets .string rest
  | .comment, c :: rest => if c = '\n' then brackets .code rest else brackets .comment rest

/-- Brackets that are properly nested. -/
inductive Balanced : List Char → Prop where
  | nil : Balanced []
  | bracket {opening closing : Char} {inner rest : List Char}
      (pair : (opening, closing) ∈ bracketPairs) :
      Balanced inner → Balanced rest → Balanced (opening :: (inner ++ closing :: rest))

/-- Brackets that close the awaited ones, the first of them first, and all that they open. -/
inductive Closes : List Char → List Char → Prop where
  | nil : Closes [] []
  | opening {opening closing : Char} {awaited rest : List Char}
      (pair : (opening, closing) ∈ bracketPairs) :
      Closes (closing :: awaited) rest → Closes awaited (opening :: rest)
  | closing (c : Char) {awaited rest : List Char} :
      Closes awaited rest → Closes (c :: awaited) (c :: rest)

/-- Brackets in segments: balanced ones up to each awaited one, and after the last. -/
def Segmented : List Char → List Char → Prop
  | [], brackets => Balanced brackets
  | c :: awaited, brackets =>
    ∃ inner rest, brackets = inner ++ c :: rest ∧ Balanced inner ∧ Segmented awaited rest

theorem Segmented.opening {opening closing : Char} (pair : (opening, closing) ∈ bracketPairs)
    {awaited rest : List Char} (h : Segmented (closing :: awaited) rest) :
    Segmented awaited (opening :: rest) := by
  obtain ⟨inner, after, rfl, hinner, hafter⟩ := h
  cases awaited with
  | nil => exact .bracket pair hinner hafter
  | cons c awaited =>
    obtain ⟨between, rest, rfl, hbetween, hrest⟩ := hafter
    exact ⟨opening :: (inner ++ closing :: between), rest, by simp, .bracket pair hinner hbetween,
      hrest⟩

theorem Closes.segmented {awaited brackets : List Char} (h : Closes awaited brackets) :
    Segmented awaited brackets := by
  induction h with
  | nil => exact .nil
  | opening pair _ ih => exact ih.opening pair
  | closing c _ ih => exact ⟨[], _, rfl, .nil, ih⟩

/-- Where nothing is awaited, brackets that close all that they open are balanced. -/
theorem Closes.balanced {brackets : List Char} (h : Closes [] brackets) : Balanced brackets :=
  h.segmented

/-! ## Texts that close what is awaited -/

/-- A text that closes the awaited brackets, in a mode, and does not end inside a string. -/
structure Closed (mode : Mode) (awaited text : List Char) : Prop where
  closes : Closes awaited (brackets mode text)
  ends : scan mode text ≠ .string

/-- A character of code that opens neither a string nor a comment and is no bracket. -/
def isInert (c : Char) : Bool := c != '"' && c != '/' && !isBracket c

/-- Characters of a class to which none of the others belong. -/
theorem isInert_of {p : Char → Bool}
    (hp : ['"', '/', '{', '}', '[', ']', '(', ')'].any p = false) {c : Char}
    (h : p c = true) : isInert c = true := by
  have hne : ∀ d ∈ ['"', '/', '{', '}', '[', ']', '(', ')'], c ≠ d := by
    rintro d hd rfl
    exact List.any_eq_false.1 hp c hd h
  simp only [List.forall_mem_cons] at hne
  simp [isInert, isBracket, bracketPairs, hne]

theorem brackets_code_cons {c : Char} {rest : List Char} (hquote : c ≠ '"')
    (hslash : ∀ more, c :: rest ≠ '/' :: '/' :: more) :
    brackets .code (c :: rest) =
      if isBracket c then c :: brackets .code rest else brackets .code rest := by
  rw [brackets, if_neg hquote]
  intro more hc hrest
  exact hslash more (by rw [hc, hrest])

theorem brackets_string_cons {c : Char} (hquote : c ≠ '"') (hback : c ≠ '\\') (rest : List Char) :
    brackets .string (c :: rest) = brackets .string rest := by
  rw [brackets, if_neg hquote]
  intro _ _ hc
  exact absurd hc hback

namespace Closed

variable {awaited rest : List Char} {c : Char}

theorem nil : Closed .code [] [] := ⟨.nil, nofun⟩

/-- A character of code that is no bracket. -/
theorem cons (hquote : c ≠ '"') (hslash : ∀ more, c :: rest ≠ '/' :: '/' :: more)
    (hbracket : isBracket c = false) (h : Closed .code awaited rest) :
    Closed .code awaited (c :: rest) := by
  refine ⟨?_, ?_⟩
  · rw [brackets_code_cons hquote hslash, hbracket]
    exact h.closes
  · rw [scan_code_cons hquote hslash]
    exact h.ends

theorem inert (hc : isInert c = true) (h : Closed .code awaited rest) :
    Closed .code awaited (c :: rest) := by
  simp only [isInert, Bool.and_eq_true, bne_iff_ne, Bool.not_eq_true'] at hc
  exact h.cons hc.1.1 (fun _ heq => hc.1.2 (List.cons.inj heq).1) hc.2

theorem inerts {front : List Char} (hfront : ∀ c ∈ front, isInert c = true)
    (h : Closed .code awaited rest) : Closed .code awaited (front ++ rest) := by
  induction front with
  | nil => exact h
  | cons c front ih =>
    obtain ⟨hc, hothers⟩ := List.forall_mem_cons.1 hfront
    exact (ih hothers).inert hc

theorem opening {closing : Char} (pair : (c, closing) ∈ bracketPairs)
    (h : Closed .code (closing :: awaited) rest) : Closed .code awaited (c :: rest) := by
  have hc : c ≠ '"' ∧ c ≠ '/' ∧ isBracket c = true := by
    simp only [bracketPairs, List.mem_cons, Prod.mk.injEq, List.not_mem_nil, or_false] at pair
    rcases pair with ⟨rfl, -⟩ | ⟨rfl, -⟩ | ⟨rfl, -⟩ <;> decide
  refine ⟨?_, ?_⟩
  · rw [brackets_code_cons hc.1 fun _ heq => hc.2.1 (List.cons.inj heq).1, hc.2.2]
    exact .opening pair h.closes
  · rw [scan_code_of_ne ⟨hc.1, hc.2.1⟩]
    exact h.ends

theorem closing {opening : Char} (pair : (opening, c) ∈ bracketPairs)
    (h : Closed .code awaited rest) : Closed .code (c :: awaited) (c :: rest) := by
  have hc : c ≠ '"' ∧ c ≠ '/' ∧ isBracket c = true := by
    simp only [bracketPairs, List.mem_cons, Prod.mk.injEq, List.not_mem_nil, or_false] at pair
    rcases pair with ⟨-, rfl⟩ | ⟨-, rfl⟩ | ⟨-, rfl⟩ <;> decide
  refine ⟨?_, ?_⟩
  · rw [brackets_code_cons hc.1 fun _ heq => hc.2.1 (List.cons.inj heq).1, hc.2.2]
    exact .closing c h.closes
  · rw [scan_code_of_ne ⟨hc.1, hc.2.1⟩]
    exact h.ends

/-! Gaps are passed over with all brackets in their comments. -/

mutual

theorem of_skip : ∀ {text : List Char}, Closed .code awaited (skip text) →
    Closed .code awaited text
  | [], h => h
  | c :: rest, h => by
    rcases skip_cons_cases c rest with ⟨more, heq, hskip⟩ | ⟨hblank, hskip⟩ | ⟨hskip, -⟩
    · have hlength : more.length ≤ rest.length := by
        rw [(List.cons.inj heq).2, List.length_cons]
        omega
      rw [hskip] at h
      have hcomment := of_skipComment h
      rw [heq]
      exact ⟨hcomment.closes, hcomment.ends⟩
    · rw [hskip] at h
      exact (of_skip h).inert (isInert_of (by decide) hblank)
    · rw [hskip] at h
      exact h
termination_by text => text.length

theorem of_skipComment : ∀ {text : List Char}, Closed .code awaited (skipComment text) →
    Closed .comment awaited text
  | [], h => ⟨h.closes, nofun⟩
  | c :: rest, h => by
    rw [skipComment] at h
    by_cases hc : c = '\n'
    · rw [if_pos hc] at h
      have hrest := of_skip h
      exact ⟨by rw [brackets, if_pos hc]; exact hrest.closes,
        by rw [scan, if_pos hc]; exact hrest.ends⟩
    · rw [if_neg hc] at h
      have hrest := of_skipComment h
      exact ⟨by rw [brackets, if_neg hc]; exact hrest.closes,
        by rw [scan, if_neg hc]; exact hrest.ends⟩
termination_by text => text.length

end

/-! Strings are passed over with all brackets in them. -/

theorem string_cons (hquote : c ≠ '"') (hback : c ≠ '\\') (h : Closed .string awaited rest) :
    Closed .string awaited (c :: rest) := by
  refine ⟨?_, ?_⟩
  · rw [brackets_string_cons hquote hback]
    exact h.closes
  · rw [scan_string_cons hquote hback]
    exact h.ends

theorem string_escape (c : Char) (h : Closed .string awaited rest) :
    Closed .string awaited ('\\' :: c :: rest) := ⟨h.closes, h.ends⟩

theorem of_stringTail {opening text content : List Char}
    (hread : Reader.stringTail opening text = .ok (content, rest))
    (h : Closed .code awaited rest) : Closed .string awaited text := by
  fun_induction Reader.stringTail opening text generalizing content with
  | case1 => cases hread
  | case2 after =>
    cases hread
    exact ⟨h.closes, h.ends⟩
  | case3 after => cases hread
  | case4 => cases hread
  | case5 h₁ h₂ h₃ h₄ after code hcode _ _ ih =>
    obtain ⟨tail, -, htail⟩ := Reader.withChar_eq_ok hread
    have hdigits := ne_of_hexCode? hcode
    simp only [List.forall_mem_cons] at hdigits
    obtain ⟨⟨hq₁, hb₁⟩, ⟨hq₂, hb₂⟩, ⟨hq₃, hb₃⟩, ⟨hq₄, hb₄⟩, -⟩ := hdigits
    have hafter := ih htail
    exact ((((hafter.string_cons hq₄ hb₄).string_cons hq₃ hb₃).string_cons hq₂ hb₂).string_cons
      hq₁ hb₁).string_escape 'u'
  | case6 => cases hread
  | case7 => cases hread
  | case8 c after hc _ _ ih =>
    obtain ⟨tail, -, htail⟩ := Reader.withChar_eq_ok hread
    exact (ih htail).string_escape c
  | case9 c after hquote hnewline hback ih =>
    obtain ⟨tail, -, htail⟩ := Reader.withChar_eq_ok hread
    exact (ih htail).string_cons hquote hback

end Closed

end Text

open Text (Closed isInert isInert_of bracketPairs)

namespace Reader

/-! ## Fixed texts and words -/

section

variable {awaited text rest : List Char}

theorem closed_of_eat? {c : Char} (heat : eat? c text = some rest) (hc : isInert c = true)
    (h : Closed .code awaited rest) : Closed .code awaited text := by
  rw [eat?_eq_some heat]
  exact h.inert hc

theorem closed_of_eatUnless {c : Char} {forbids : List Char → Bool}
    (heat : eatUnless c forbids text = some rest) (hc : isInert c = true)
    (h : Closed .code awaited rest) : Closed .code awaited text := by
  rw [eatUnless] at heat
  split at heat
  · rename_i more hmore
    split at heat
    · cases heat
    · rw [← Option.some.inj heat] at h
      exact closed_of_eat? hmore hc h
  · cases heat

theorem closed_of_eatText? {expected : List Char} (heat : eatText? expected text = some rest)
    (hexpected : expected.all isInert = true) (h : Closed .code awaited rest) :
    Closed .code awaited text := by
  rw [eatText?_eq_some heat]
  exact h.inerts (List.all_eq_true.1 hexpected)

theorem expect_eq_ok {c : Char} (h : expect c text = .ok rest) : text = c :: rest := by
  rw [expect] at h
  split at h
  · rename_i more heat
    cases h
    exact eat?_eq_some heat
  · cases h

theorem closed_of_expectBlank {after : String} (hread : expectBlank after text = .ok rest)
    (h : Closed .code awaited rest) : Closed .code awaited text := by
  cases text with
  | nil => cases hread
  | cons c more =>
    rw [expectBlank] at hread
    split at hread
    · rename_i hblank
      cases hread
      exact h.of_skip.inert (isInert_of (by decide) hblank)
    · cases hread

theorem isInert_of_isSymbol {x : String} (h : isSymbol x = true) :
    ∀ c ∈ x.toList, isInert c = true := by
  obtain ⟨c, cs, hlist, hc, hcs⟩ := exists_of_isSymbol h
  rw [hlist]
  refine List.forall_mem_cons.2 ⟨isInert_of (by decide) hc, ?_⟩
  exact fun d hd => isInert_of (by decide) (hcs d hd)

theorem closed_of_word? {x : String} (hword : word? text = some (x, rest))
    (h : Closed .code awaited rest) : Closed .code awaited text := by
  obtain ⟨hx, rfl⟩ := word?_eq_some hword
  exact h.inerts (isInert_of_isSymbol hx)

theorem closed_of_eatWord? {word : String} (heat : eatWord? word text = some rest)
    (h : Closed .code awaited rest) : Closed .code awaited text :=
  closed_of_word? (word?_of_eatWord? heat) h

theorem closed_of_expectWord {word : String} (hread : expectWord word text = .ok rest)
    (h : Closed .code awaited rest) : Closed .code awaited text := by
  rw [expectWord] at hread
  split at hread
  · rename_i more heat
    cases hread
    exact closed_of_eatWord? heat h
  · cases hread

end

/-! ## Readers -/

section

variable {α : Type}

/-- A reader that closes all brackets that it opens: what closes the awaited ones after it does so
before it. -/
def Nesting (reader : Reader α) : Prop :=
  ∀ ⦃text value rest⦄, reader text = .ok (value, rest) →
    ∀ ⦃awaited⦄, Closed .code awaited rest → Closed .code awaited text

/-- A reader that also reads an awaited bracket. -/
def Closing (c : Char) (reader : Reader α) : Prop :=
  ∀ ⦃text value rest⦄, reader text = .ok (value, rest) →
    ∀ ⦃awaited⦄, Closed .code awaited rest → Closed .code (c :: awaited) text

theorem nesting_fault (cause : Cause) : Nesting (fault cause : Reader α) := by
  intro text value rest hread
  cases hread

theorem closing_fault (c : Char) (cause : Cause) : Closing c (fault cause : Reader α) := by
  intro text value rest hread
  cases hread

end

theorem nesting_identifier : Nesting identifier := by
  intro text x rest hread awaited h
  rw [identifier] at hread
  split at hread
  · rename_i found hword
    cases hread
    exact closed_of_word? hword h
  · cases hread

theorem isInert_of_numeralRun? {text run rest : List Char}
    (h : numeralRun? text = some (run, rest)) : ∀ c ∈ run, isInert c = true := by
  rw [numeralRun?] at h
  split at h
  · cases h
  · obtain ⟨rfl, -⟩ := Prod.mk.inj (Option.some.inj h)
    intro c hc
    rw [List.mem_append] at hc
    rcases hc with hc | hc
    · rw [beq_iff_eq.1 (List.mem_filter.1 hc).2]
      decide
    · exact isInert_of (by decide) (List.all_eq_true.1 List.all_takeWhile c hc)

theorem nesting_numeral : Nesting numeral := by
  intro text found rest hread awaited h
  rw [numeral] at hread
  split at hread
  · cases hread
  · rename_i run more hrun
    split at hread
    · cases hread
      rw [(numeralRun?_eq_some hrun).2]
      exact h.inerts (isInert_of_numeralRun? hrun)
    · cases hread

theorem nesting_string : Nesting string := by
  intro text content rest hread awaited h
  simp only [string, bind_eq_ok_iff, Prod.exists, Except.ok.injEq, Prod.mk.injEq] at hread
  obtain ⟨after, hquote, found, more, htail, rfl, rfl⟩ := hread
  rw [expect_eq_ok hquote]
  have hstring := h.of_stringTail htail
  exact ⟨hstring.closes, hstring.ends⟩

end Reader

end Dialogue
