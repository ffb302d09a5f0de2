import Dialogue.Proofs.RoundTrip.Enclosed
import Dialogue.Proofs.Seam.Expression
import Dialogue.Reader.Statement

/-!
# Texts that differ in a gap

A `Respacing` is a text in two versions: both have the same front, which ends outside strings and
comments, and then they go on with a blank and with the same text after the gap that the blank
starts. Reading the two versions side by side, the rests are `Twins`: the gap is still ahead of
both readers, or it is behind them and the rests are equal.

`Tracks` compares one reading of each version: what is read from the first is read from the second,
and the rests are twins. There is one way out, a fault at the sign of an assignment that only the
first version shows behind a keyword (`Respacing.Hides`). This module has the comparison for gaps
and lexemes.
-/

namespace Dialogue

open Text (isBlank skip skipComment skipBlanks hexCode? charOfCode)

namespace Text

/-! ## Code, strings and comments -/

/-- What a character of a script can be part of. -/
inductive Mode where
  | code
  | string
  | comment
  deriving DecidableEq, Repr

/-- What the next character of a script is part of, once a text has been passed over. A string ends
at a quote that no backslash escapes, and a comment at a newline. -/
def scan : Mode → List Char → Mode
  | mode, [] => mode
  | .code, '/' :: '/' :: rest => scan .comment rest
  | .code, c :: rest => if c = '"' then scan .string rest else scan .code rest
  | .string, '\\' :: _ :: rest => scan .string rest
  | .string, c :: rest => if c = '"' then scan .code rest else scan .string rest
  | .comment, c :: rest => if c = '\n' then scan .code rest else scan .comment rest

/-- A character that is neither blank nor starts a string or a comment. -/
def isPlain (c : Char) : Bool := !isBlank c && c != '"' && c != '/'

theorem isBlank_of_isPlain {c : Char} (h : isPlain c = true) : isBlank c = false := by
  simp only [isPlain, Bool.and_eq_true, Bool.not_eq_true'] at h
  exact h.1.1

theorem ne_of_isPlain {c : Char} (h : isPlain c = true) : c ≠ '"' ∧ c ≠ '/' := by
  simp only [isPlain, Bool.and_eq_true, bne_iff_ne] at h
  exact ⟨h.1.2, h.2⟩

theorem ne_of_isBlank {c : Char} (h : isBlank c = true) : c ≠ '"' ∧ c ≠ '/' := by
  constructor
  · rintro rfl
    cases h
  · rintro rfl
    cases h

/-- Code goes on after a character that opens no string and no comment. -/
theorem scan_code_cons {c : Char} {rest : List Char} (hquote : c ≠ '"')
    (hslash : ∀ more, c :: rest ≠ '/' :: '/' :: more) :
    scan .code (c :: rest) = scan .code rest := by
  rw [scan, if_neg hquote]
  intro more hc hrest
  exact hslash more (by rw [hc, hrest])

theorem scan_code_of_ne {c : Char} (h : c ≠ '"' ∧ c ≠ '/') (rest : List Char) :
    scan .code (c :: rest) = scan .code rest :=
  scan_code_cons h.1 fun _ heq => h.2 (List.cons.inj heq).1

theorem scan_string_cons {c : Char} (hquote : c ≠ '"') (hback : c ≠ '\\') (rest : List Char) :
    scan .string (c :: rest) = scan .string rest := by
  rw [scan, if_neg hquote]
  intro _ _ hc
  exact absurd hc hback

theorem skip_of_isBlank {c : Char} (h : isBlank c = true) (rest : List Char) :
    skip (c :: rest) = skip rest := by
  rcases skip_cons_cases c rest with ⟨more, heq, -⟩ | ⟨-, hskip⟩ | ⟨-, hblank, -⟩
  · exact absurd (List.cons.inj heq).1 (ne_of_isBlank h).2
  · exact hskip
  · simp [h] at hblank

/-- Dropping characters that open neither a string nor a comment. -/
theorem scan_code_dropWhile {p : Char → Bool} (hp : ∀ c, p c = true → c ≠ '"' ∧ c ≠ '/')
    (text : List Char) : scan .code (text.dropWhile p) = scan .code text := by
  induction text with
  | nil => rfl
  | cons c rest ih =>
    by_cases hc : p c = true
    · rw [List.dropWhile_cons, if_pos hc, ih, scan_code_of_ne (hp c hc)]
    · rw [List.dropWhile_cons, if_neg hc]

mutual

/-- A gap in code before a blank either ends in the text, or goes on with the blank. -/
theorem skip_append_of_scan {back : List Char} (hback : back.head?.any isBlank = true) :
    ∀ text : List Char, scan .code text = .code →
      (skip text ≠ [] ∧ skip (text ++ back) = skip text ++ back ∧ scan .code (skip text) = .code) ∨
        (skip text = [] ∧ skip (text ++ back) = skip back)
  | [], _ => Or.inr ⟨rfl, rfl⟩
  | c :: rest, hscan => by
    rcases skip_cons_cases c rest with ⟨more, heq, hskip⟩ | ⟨hblank, hskip⟩ |
      ⟨hskip, hblank, hsolid⟩
    · have hlength : more.length ≤ rest.length := by
        rw [(List.cons.inj heq).2, List.length_cons]
        omega
      have hlonger : skip (c :: rest ++ back) = skipComment (more ++ back) := by
        rw [heq]
        rfl
      rw [hskip, hlonger]
      rw [heq] at hscan
      exact skipComment_append_of_scan hback more hscan
    · rw [scan_code_of_ne (ne_of_isBlank hblank)] at hscan
      rw [hskip, List.cons_append, skip_of_isBlank hblank]
      exact skip_append_of_scan hback rest hscan
    · have hlonger : skip (c :: rest ++ back) = c :: rest ++ back := by
        rcases skip_cons_cases c (rest ++ back) with ⟨more, heq, -⟩ | ⟨h, -⟩ | ⟨h, -⟩
        · obtain ⟨rfl, hrest⟩ := List.cons.inj heq
          cases rest with
          | nil =>
            -- the blank after a slash keeps it from starting a comment
            rw [List.nil_append] at hrest
            simp [hrest] at hback
            cases hback
          | cons d rest => exact absurd (by rw [(List.cons.inj hrest).1]) (hsolid rest)
        · simp [hblank] at h
        · exact h
      rw [hskip, hlonger]
      exact Or.inl ⟨List.cons_ne_nil c rest, rfl, hscan⟩
termination_by text => text.length

theorem skipComment_append_of_scan {back : List Char} (hback : back.head?.any isBlank = true) :
    ∀ text : List Char, scan .comment text = .code →
      (skipComment text ≠ [] ∧ skipComment (text ++ back) = skipComment text ++ back ∧
        scan .code (skipComment text) = .code) ∨
        (skipComment text = [] ∧ skipComment (text ++ back) = skip back)
  | [], hscan => by cases hscan
  | c :: rest, hscan => by
    rw [scan] at hscan
    rw [List.cons_append, skipComment, skipComment]
    by_cases hc : c = '\n'
    · rw [if_pos hc] at hscan
      simp only [if_pos hc]
      exact skip_append_of_scan hback rest hscan
    · rw [if_neg hc] at hscan
      simp only [if_neg hc]
      exact skipComment_append_of_scan hback rest hscan
termination_by text => text.length

end

end Text

/-! ## Two versions of a text -/

open Text (Mode scan isPlain)

/-- A text in two versions: a common front, and what each version goes on with from the first blank
of a gap. Behind the gap, the versions are the same. -/
structure Respacing where
  front : List Char
  old : List Char
  new : List Char
  old_blank : old.head?.any isBlank = true
  new_blank : new.head?.any isBlank = true
  skip_eq : skip old = skip new

namespace Respacing

variable (texts : Respacing)

/-- The rests of the two versions at one point of reading, of which the next character is code (or
part of a string): the gap lies ahead, or the rests are equal. -/
inductive Rests (mode : Mode) : List Char → List Char → Prop where
  | ahead {front : List Char} (suffix : front <:+ texts.front) (code : scan mode front = .code) :
    Rests mode (front ++ texts.old) (front ++ texts.new)
  | behind (rest : List Char) : Rests mode rest rest

/-- The rests of the two versions where the next character is code. -/
abbrev Twins (text text' : List Char) : Prop := texts.Rests .code text text'

/-- The front ends with a keyword, and only the first version shows behind it that it is assigned
to. -/
structure Hides : Prop where
  keyword : ∃ start keyword blanks, texts.front = start ++ (Keyword.text keyword).toList ++ blanks ∧
    ∀ c ∈ blanks, isBlank c = true
  shown : Reader.assigns texts.old = true
  hidden : Reader.assigns texts.new = false

/-! ## Rests -/

variable {texts} {mode : Mode} {text text' : List Char}

theorem Rests.nil (h : texts.Rests mode [] text') : text' = [] := by
  generalize hnil : ([] : List Char) = text at h
  cases h with
  | behind rest => rfl
  | ahead suffix code =>
    have hold := texts.old_blank
    rw [(List.append_eq_nil_iff.1 hnil.symm).2] at hold
    cases hold

/-- What rests start with: the same character behind the gap or ahead of it, or the gap itself. -/
theorem Rests.cons {c : Char} {rest : List Char} (h : texts.Rests mode (c :: rest) text') :
    text' = c :: rest ∨
    (∃ front, c :: front <:+ texts.front ∧ scan mode (c :: front) = .code ∧
      rest = front ++ texts.old ∧ text' = c :: (front ++ texts.new)) ∨
    (mode = .code ∧ isBlank c = true ∧
      ∃ c' rest', text' = c' :: rest' ∧ isBlank c' = true ∧ skip rest = skip rest') := by
  generalize htext : c :: rest = text at h
  cases h with
  | behind rest => exact Or.inl rfl
  | @ahead front suffix code =>
    cases front with
    | cons d front =>
      obtain ⟨rfl, rfl⟩ := List.cons.inj htext
      exact Or.inr (Or.inl ⟨front, suffix, code, rfl, rfl⟩)
    | nil =>
      rw [List.nil_append] at htext ⊢
      have hold := texts.old_blank
      have hnew := texts.new_blank
      have hskip := texts.skip_eq
      rw [← htext] at hold hskip
      cases hnewText : texts.new with
      | nil => simp [hnewText] at hnew
      | cons c' rest' =>
        rw [hnewText] at hnew hskip
        have hc : isBlank c = true := hold
        have hc' : isBlank c' = true := hnew
        rw [Text.skip_of_isBlank hc, Text.skip_of_isBlank hc'] at hskip
        exact Or.inr (Or.inr ⟨code, hc, c', rest', rfl, hc', hskip⟩)

/-- After a character that is code, and neither blank nor the start of a comment, come twins. -/
theorem Rests.tail {c : Char} {rest : List Char} (h : texts.Twins (c :: rest) text')
    (hblank : isBlank c = false) (hquote : c ≠ '"')
    (hslash : ∀ more, c :: rest ≠ '/' :: '/' :: more) :
    ∃ rest', text' = c :: rest' ∧ texts.Twins rest rest' := by
  rcases h.cons with rfl | ⟨front, suffix, code, rfl, rfl⟩ | ⟨-, hc, -⟩
  · exact ⟨rest, rfl, .behind rest⟩
  · refine ⟨_, rfl, .ahead ((List.suffix_cons c front).trans suffix) ?_⟩
    rw [Text.scan_code_cons hquote] at code
    · exact code
    intro more heq
    obtain ⟨rfl, rfl⟩ := List.cons.inj heq
    exact hslash (more ++ texts.old) rfl
  · simp [hblank] at hc

theorem Rests.tail_of_isPlain {c : Char} {rest : List Char} (h : texts.Twins (c :: rest) text')
    (hc : isPlain c = true) : ∃ rest', text' = c :: rest' ∧ texts.Twins rest rest' := by
  obtain ⟨hquote, hslash⟩ := Text.ne_of_isPlain hc
  exact h.tail (Text.isBlank_of_isPlain hc) hquote fun _ heq => hslash (List.cons.inj heq).1

theorem Rests.skip (h : texts.Twins text text') : texts.Twins (skip text) (skip text') := by
  cases h with
  | behind rest => exact .behind _
  | @ahead front suffix code =>
    rcases Text.skip_append_of_scan texts.old_blank front code with
      ⟨hne, hold, hcode⟩ | ⟨hnil, hold⟩
    · rcases Text.skip_append_of_scan texts.new_blank front code with ⟨-, hnew, -⟩ | ⟨hnil, -⟩
      · rw [hold, hnew]
        exact .ahead ((Text.skip_suffix front).trans suffix) hcode
      · exact absurd hnil hne
    · rcases Text.skip_append_of_scan texts.new_blank front code with ⟨hne, -⟩ | ⟨-, hnew⟩
      · exact absurd hnil hne
      · rw [hold, hnew, texts.skip_eq]
        exact .behind _

/-- A property of the next character that no blank has. -/
theorem Rests.head_any (h : texts.Twins text text') {p : Char → Bool}
    (hp : ∀ c, isBlank c = true → p c = false) : text.head?.any p = text'.head?.any p := by
  cases text with
  | nil => rw [h.nil]
  | cons c rest =>
    rcases h.cons with rfl | ⟨front, -, -, -, rfl⟩ | ⟨-, hc, c', rest', rfl, hc', -⟩
    · rfl
    · rfl
    · simp [hp c hc, hp c' hc']

theorem Rests.head_blank (h : texts.Twins text text') :
    text.head?.any isBlank = text'.head?.any isBlank := by
  cases text with
  | nil => rw [h.nil]
  | cons c rest =>
    rcases h.cons with rfl | ⟨front, -, -, -, rfl⟩ | ⟨-, hc, c', rest', rfl, hc', -⟩
    · rfl
    · rfl
    · simp [hc, hc']

/-- What starts twins with characters of some class, and what is left after it. -/
theorem Rests.takeWhile (h : texts.Twins text text') {p : Char → Bool}
    (hp : ∀ c, p c = true → isPlain c = true) :
    text.takeWhile p = text'.takeWhile p ∧
      texts.Twins (text.dropWhile p) (text'.dropWhile p) := by
  have hblank : ∀ back : List Char, back.head?.any isBlank = true → back.takeWhile p = [] ∧
      back.dropWhile p = back := by
    intro back hback
    cases back with
    | nil => exact ⟨rfl, rfl⟩
    | cons c rest =>
      have hc : p c = false := by
        rw [Bool.eq_false_iff]
        intro hc
        have hblank : isBlank c = true := hback
        rw [Text.isBlank_of_isPlain (hp c hc)] at hblank
        cases hblank
      simp [hc]
  cases h with
  | behind rest => exact ⟨rfl, .behind _⟩
  | @ahead front suffix code =>
    obtain ⟨htakeOld, hdropOld⟩ := hblank texts.old texts.old_blank
    obtain ⟨htakeNew, hdropNew⟩ := hblank texts.new texts.new_blank
    have htake : ∀ back : List Char, back.takeWhile p = [] →
        (front ++ back).takeWhile p = front.takeWhile p := by
      intro back hback
      rw [List.takeWhile_append, hback]
      split
      · rename_i hall
        rw [List.append_nil]
        exact (List.IsPrefix.eq_of_length (List.takeWhile_prefix p) hall).symm
      · rfl
    have hdrop : ∀ back : List Char, back.dropWhile p = back →
        (front ++ back).dropWhile p = front.dropWhile p ++ back := by
      intro back hback
      rw [List.dropWhile_append, hback]
      split
      · rename_i hall
        rw [List.isEmpty_iff.1 hall, List.nil_append]
      · rfl
    rw [htake _ htakeOld, htake _ htakeNew, hdrop _ hdropOld, hdrop _ hdropNew]
    refine ⟨rfl, .ahead ((List.dropWhile_suffix p).trans suffix) ?_⟩
    rw [Text.scan_code_dropWhile fun c hc => Text.ne_of_isPlain (hp c hc)]
    exact code

/-! ## Lookups -/

/-- Two results of looking for something: the same value, and twins as rests. -/
def Alike {α : Type} (texts : Respacing) (found found' : α × List Char) : Prop :=
  found.1 = found'.1 ∧ texts.Twins found.2 found'.2

/-- Related lookups both find nothing, or they find related things. -/
theorem rel_cases {α β : Type} {related : α → β → Prop} {o : Option α} {o' : Option β}
    (h : Option.Rel related o o') :
    (o = none ∧ o' = none) ∨ ∃ a b, o = some a ∧ o' = some b ∧ related a b := by
  cases h with
  | none => exact Or.inl ⟨rfl, rfl⟩
  | some hab => exact Or.inr ⟨_, _, rfl, rfl, hab⟩

theorem isSome_of_rel {α β : Type} {related : α → β → Prop} {o : Option α} {o' : Option β}
    (h : Option.Rel related o o') : o.isSome = o'.isSome := by
  rcases rel_cases h with ⟨rfl, rfl⟩ | ⟨a, b, rfl, rfl, -⟩
  · rfl
  · rfl

theorem Rests.eat? (h : texts.Twins text text') {c : Char} (hc : isPlain c = true) :
    Option.Rel texts.Twins (Reader.eat? c text) (Reader.eat? c text') := by
  cases text with
  | nil =>
    rw [h.nil]
    exact .none
  | cons d rest =>
    by_cases hd : d = c
    · subst hd
      obtain ⟨rest', rfl, hrest⟩ := h.tail_of_isPlain hc
      rw [Reader.eat?_self, Reader.eat?_self]
      exact .some hrest
    · have hnone : ∀ d' rest', text' = d' :: rest' → d' ≠ c → Reader.eat? c text' = none := by
        rintro d' rest' rfl hd'
        exact Reader.eat?_ne hd' rest'
      rw [Reader.eat?_ne hd]
      have hnone' : Reader.eat? c text' = none := by
        rcases h.cons with rfl | ⟨front, -, -, -, rfl⟩ | ⟨-, -, c', rest', rfl, hc', -⟩
        · exact hnone d rest rfl hd
        · exact hnone d _ rfl hd
        · refine hnone c' rest' rfl ?_
          rintro rfl
          simp [Text.isBlank_of_isPlain hc] at hc'
      rw [hnone']
      exact .none

theorem Rests.isSome_eat? (h : texts.Twins text text') {c : Char} (hc : isBlank c = false) :
    (Reader.eat? c text).isSome = (Reader.eat? c text').isSome := by
  have hhead : ∀ text, (Reader.eat? c text).isSome = text.head?.any (· == c) := by
    intro text
    cases text with
    | nil => rfl
    | cons d rest =>
      by_cases hd : d = c
      · simp [Reader.eat?, hd]
      · simp [Reader.eat?, hd]
  rw [hhead, hhead]
  refine h.head_any fun d hd => ?_
  rw [beq_eq_false_iff_ne]
  rintro rfl
  simp [hc] at hd

theorem Rests.eatUnless (h : texts.Twins text text') {c : Char} (hc : isPlain c = true)
    {forbids : List Char → Bool}
    (hforbids : ∀ rest rest', texts.Twins rest rest' → forbids rest = forbids rest') :
    Option.Rel texts.Twins (Reader.eatUnless c forbids text)
      (Reader.eatUnless c forbids text') := by
  rw [Reader.eatUnless, Reader.eatUnless]
  rcases rel_cases (h.eat? hc) with ⟨hnone, hnone'⟩ | ⟨rest, rest', hsome, hsome', hrest⟩
  · rw [hnone, hnone']
    exact .none
  · simp only [hsome, hsome', hforbids rest rest' hrest]
    split
    · exact .none
    · exact .some hrest

theorem Rests.eatText? (h : texts.Twins text text') {expected : List Char}
    (hexpected : ∀ c ∈ expected, isPlain c = true) :
    Option.Rel texts.Twins (Reader.eatText? expected text) (Reader.eatText? expected text') := by
  induction expected generalizing text text' with
  | nil => exact .some h
  | cons c cs ih =>
    have hstep : ∀ text, Reader.eatText? (c :: cs) text =
        (Reader.eat? c text).bind (Reader.eatText? cs) := by
      intro text
      cases text with
      | nil => rfl
      | cons d rest =>
        rw [Reader.eatText?, Reader.eat?]
        split
        · rfl
        · rfl
    rw [hstep, hstep]
    rcases rel_cases (h.eat? (hexpected c List.mem_cons_self)) with
      ⟨hnone, hnone'⟩ | ⟨rest, rest', hsome, hsome', hrest⟩
    · rw [hnone, hnone']
      exact .none
    · rw [hsome, hsome']
      exact ih hrest fun d hd => hexpected d (List.mem_cons_of_mem c hd)

/-! ## Words -/

theorem isPlain_of_bounds {c : Char} (h : 48 ≤ c.toNat ∧ c.toNat ≤ 122) : isPlain c = true := by
  have hsolid := Reader.isSolid_of_bounds h
  have hquote : c ≠ '"' := by
    rintro rfl
    exact absurd h (by decide)
  simp only [Text.isSolid, Bool.and_eq_true] at hsolid
  simp [isPlain, hsolid, hquote]

theorem isPlain_of_isWordStart {c : Char} (h : Reader.isWordStart c = true) :
    isPlain c = true := by
  have hbounds := Reader.isWordStart_bounds h
  exact isPlain_of_bounds (by omega)

theorem isPlain_of_isDigit {c : Char} (h : c.isDigit = true) : isPlain c = true := by
  have hbounds := Reader.isDigit_bounds h
  exact isPlain_of_bounds (by omega)

theorem isPlain_of_isWordPart {c : Char} (h : Reader.isWordPart c = true) : isPlain c = true := by
  by_cases hdigit : c.isDigit = true
  · exact isPlain_of_isDigit hdigit
  · refine isPlain_of_isWordStart ?_
    simpa [Reader.isWordPart, Reader.isWordStart, Char.isAlphanum, hdigit] using h

theorem Rests.word? (h : texts.Twins text text') :
    Option.Rel texts.Alike (Reader.word? text) (Reader.word? text') := by
  cases text with
  | nil =>
    rw [h.nil]
    exact .none
  | cons c rest =>
    by_cases hc : Reader.isWordStart c = true
    · obtain ⟨rest', rfl, hrest⟩ := h.tail_of_isPlain (isPlain_of_isWordStart hc)
      obtain ⟨htake, hdrop⟩ := hrest.takeWhile fun _ => isPlain_of_isWordPart
      rw [Reader.word?, Reader.word?, if_pos hc, if_pos hc, htake]
      exact .some ⟨rfl, hdrop⟩
    · have hnone : ∀ text, text.head?.any Reader.isWordStart = false →
          Reader.word? text = none := by
        intro text htext
        cases text with
        | nil => rfl
        | cons c rest => exact if_neg (Bool.eq_false_iff.1 htext)
      have hhead := h.head_any (p := Reader.isWordStart) fun d hd => by
        rw [Bool.eq_false_iff]
        intro hstart
        rw [Text.isBlank_of_isPlain (isPlain_of_isWordStart hstart)] at hd
        cases hd
      have hfalse : (c :: rest).head?.any Reader.isWordStart = false := Bool.eq_false_iff.2 hc
      rw [hnone _ hfalse, hnone _ (hhead ▸ hfalse)]
      exact .none

theorem Rests.eatWord? (h : texts.Twins text text') (word : String) :
    Option.Rel texts.Twins (Reader.eatWord? word text) (Reader.eatWord? word text') := by
  rw [Reader.eatWord?, Reader.eatWord?]
  rcases rel_cases h.word? with ⟨hnone, hnone'⟩ |
    ⟨⟨actual, rest⟩, ⟨actual', rest'⟩, hsome, hsome', rfl, hrest⟩
  · rw [hnone, hnone']
    exact .none
  · simp only [hsome, hsome']
    split
    · exact .some hrest
    · exact .none

end Respacing

/-! ## Comparing readings -/

namespace Reader

open Respacing (rel_cases)

/-- How readings of the two versions of a text compare: what is read from the first is read from
the second, with twins as rests, unless the second one fails at the sign of an assignment that is
hidden from it. -/
def Tracks {α : Type} (texts : Respacing) :
    Except Fault (α × List Char) → Except Fault (α × List Char) → Prop
  | .ok found, read' =>
    (∃ found', read' = .ok found' ∧ texts.Alike found found') ∨
      (texts.Hides ∧ ∃ cause, read' = .error ⟨cause, skip texts.new⟩)
  | .error _, _ => True

namespace Tracks

variable {α β : Type} {texts : Respacing} {text text' : List Char}

theorem ok (value : α) {rest rest' : List Char} (h : texts.Twins rest rest') :
    Tracks texts (.ok (value, rest)) (.ok (value, rest')) :=
  Or.inl ⟨(value, rest'), rfl, rfl, h⟩

theorem fault {cause : Cause} {rest : List Char} {read' : Except Fault (α × List Char)} :
    Tracks texts (Reader.fault cause rest) read' := trivial

theorem hides {read : Except Fault (α × List Char)} (h : texts.Hides) (cause : Cause) :
    Tracks texts read (.error ⟨cause, Text.skip texts.new⟩) := by
  cases read with
  | error fault => trivial
  | ok found => exact Or.inr ⟨h, cause, rfl⟩

/-- What is read after something else. -/
theorem bind {read read' : Except Fault (α × List Char)}
    {next next' : α × List Char → Except Fault (β × List Char)} (h : Tracks texts read read')
    (hnext : ∀ value rest rest', texts.Twins rest rest' →
      Tracks texts (next (value, rest)) (next' (value, rest'))) :
    Tracks texts (read >>= next) (read' >>= next') := by
  cases read with
  | error fault => trivial
  | ok found =>
    obtain ⟨value, rest⟩ := found
    rcases h with ⟨⟨value', rest'⟩, rfl, rfl, hrest⟩ | ⟨hhides, cause, rfl⟩
    · exact hnext value rest rest' hrest
    · exact Tracks.hides hhides cause

section

variable {next next' : List Char → Except Fault (α × List Char)}

theorem expect (h : texts.Twins text text') {c : Char} (hc : isPlain c = true)
    (hnext : ∀ rest rest', texts.Twins rest rest' → Tracks texts (next rest) (next' rest')) :
    Tracks texts (Reader.expect c text >>= next) (Reader.expect c text' >>= next') := by
  rw [Reader.expect, Reader.expect]
  rcases rel_cases (h.eat? hc) with ⟨hnone, -⟩ | ⟨rest, rest', hsome, hsome', hrest⟩
  · rw [hnone]
    exact Tracks.fault
  · rw [hsome, hsome']
    exact hnext rest rest' hrest

theorem expectBlank (h : texts.Twins text text') {after : String}
    (hnext : ∀ rest rest', texts.Twins rest rest' → Tracks texts (next rest) (next' rest')) :
    Tracks texts (Reader.expectBlank after text >>= next)
      (Reader.expectBlank after text' >>= next') := by
  cases text with
  | nil => exact Tracks.fault
  | cons c rest =>
    by_cases hc : isBlank c = true
    · rw [Reader.expectBlank, if_pos hc]
      rcases h.cons with rfl | ⟨front, suffix, code, rfl, rfl⟩ | ⟨-, -, c', rest', rfl, hc', hskip⟩
      · rw [Reader.expectBlank, if_pos hc]
        exact hnext _ _ (.behind _)
      · rw [Reader.expectBlank, if_pos hc]
        rw [Text.scan_code_of_ne (Text.ne_of_isBlank hc)] at code
        have htail := (List.suffix_cons c front).trans suffix
        exact hnext _ _ (Respacing.Rests.skip (.ahead htail code))
      · rw [Reader.expectBlank, if_pos hc', hskip]
        exact hnext _ _ (.behind _)
    · rw [Reader.expectBlank, if_neg hc]
      exact Tracks.fault

theorem expectWord (h : texts.Twins text text') {word : String}
    (hnext : ∀ rest rest', texts.Twins rest rest' → Tracks texts (next rest) (next' rest')) :
    Tracks texts (Reader.expectWord word text >>= next)
      (Reader.expectWord word text' >>= next') := by
  rw [Reader.expectWord, Reader.expectWord]
  rcases rel_cases (h.eatWord? word) with ⟨hnone, -⟩ | ⟨rest, rest', hsome, hsome', hrest⟩
  · rw [hnone]
    exact Tracks.fault
  · rw [hsome, hsome']
    exact hnext rest rest' hrest

end

end Tracks

/-- Two readers, one for each version of a text. -/
def Tracking {α : Type} (texts : Respacing) (reader reader' : Reader α) : Prop :=
  ∀ text text', texts.Twins text text' → Tracks texts (reader text) (reader' text')

section

variable {texts : Respacing} {text text' : List Char}

theorem tracking_identifier : Tracking texts identifier identifier := by
  intro text text' h
  rw [identifier, identifier]
  rcases rel_cases h.word? with ⟨hnone, -⟩ | ⟨found, found', hsome, hsome', hfound⟩
  · rw [hnone]
    exact Tracks.fault
  · rw [hsome, hsome']
    exact Or.inl ⟨found', rfl, hfound⟩

/-! ## Numerals -/

theorem isPlain_of_isNumeralPart {c : Char} (h : isNumeralPart c = true) : isPlain c = true := by
  simp only [isNumeralPart, Bool.or_eq_true, beq_iff_eq] at h
  rcases h with h | rfl
  · exact Respacing.isPlain_of_isDigit h
  · decide

/-- The run of a numeral, once it is known whether a sign stands in front of it. -/
theorem numeralRun?_eq (text : List Char) :
    numeralRun? text =
      let parts := if (eat? '-' text).isSome then (['-'], text.tail) else ([], text)
      if (parts.2.takeWhile isNumeralPart).isEmpty then none
      else some (parts.1 ++ parts.2.takeWhile isNumeralPart, parts.2.dropWhile isNumeralPart) := by
  cases text with
  | nil => rfl
  | cons c rest =>
    by_cases hc : c = '-'
    · simp [numeralRun?, eat?, hc]
    · simp [numeralRun?, eat?, hc]

theorem numeralRun?_twins (h : texts.Twins text text') :
    Option.Rel texts.Alike (numeralRun? text) (numeralRun? text') := by
  have hrun : ∀ (sign : List Char) {body body' : List Char}, texts.Twins body body' →
      Option.Rel texts.Alike
        (if (body.takeWhile isNumeralPart).isEmpty then none
          else some (sign ++ body.takeWhile isNumeralPart, body.dropWhile isNumeralPart))
        (if (body'.takeWhile isNumeralPart).isEmpty then none
          else some (sign ++ body'.takeWhile isNumeralPart, body'.dropWhile isNumeralPart)) := by
    intro sign body body' hbody
    obtain ⟨htake, hdrop⟩ := hbody.takeWhile fun _ => isPlain_of_isNumeralPart
    rw [htake]
    split
    · exact .none
    · exact .some ⟨rfl, hdrop⟩
  rw [numeralRun?_eq, numeralRun?_eq, ← h.isSome_eat? (by decide)]
  rcases rel_cases (h.eat? (c := '-') (by decide)) with
    ⟨hnone, -⟩ | ⟨rest, rest', hsome, hsome', hrest⟩
  · simp only [hnone]
    exact hrun [] h
  · have htail : text.tail = rest := by rw [eat?_eq_some hsome]; rfl
    have htail' : text'.tail = rest' := by rw [eat?_eq_some hsome']; rfl
    simp only [hsome, Option.isSome_some, if_true, htail, htail']
    exact hrun ['-'] hrest

theorem tracking_numeral : Tracking texts numeral numeral := by
  intro text text' h
  rw [numeral, numeral]
  rcases rel_cases (numeralRun?_twins h) with
    ⟨hnone, -⟩ | ⟨⟨run, rest⟩, ⟨run', rest'⟩, hsome, hsome', rfl, hrest⟩
  · rw [hnone]
    exact Tracks.fault
  · simp only [hsome, hsome']
    cases Numeral.ofText? run with
    | none => exact Tracks.fault
    | some value => exact Tracks.ok _ hrest

end

end Reader

/-! ## Strings -/

namespace Respacing

variable {texts : Respacing} {text' : List Char}

/-- A character of a string that is neither a quote nor a backslash. -/
theorem Rests.string_tail {c : Char} {rest : List Char} (h : texts.Rests .string (c :: rest) text')
    (hquote : c ≠ '"') (hback : c ≠ '\\') :
    ∃ rest', text' = c :: rest' ∧ texts.Rests .string rest rest' := by
  rcases h.cons with rfl | ⟨front, suffix, code, rfl, rfl⟩ | ⟨hmode, -⟩
  · exact ⟨rest, rfl, .behind rest⟩
  · rw [Text.scan_string_cons hquote hback] at code
    exact ⟨_, rfl, .ahead ((List.suffix_cons c front).trans suffix) code⟩
  · cases hmode

theorem Rests.string_drop {cs rest : List Char} (hcs : ∀ c ∈ cs, c ≠ '"' ∧ c ≠ '\\')
    (h : texts.Rests .string (cs ++ rest) text') :
    ∃ rest', text' = cs ++ rest' ∧ texts.Rests .string rest rest' := by
  induction cs generalizing text' with
  | nil => exact ⟨text', rfl, h⟩
  | cons c cs ih =>
    obtain ⟨hc, hcs⟩ := List.forall_mem_cons.1 hcs
    obtain ⟨middle, rfl, hmiddle⟩ := h.string_tail hc.1 hc.2
    obtain ⟨rest', rfl, hrest⟩ := ih hcs hmiddle
    exact ⟨rest', rfl, hrest⟩

/-- The quote that ends a string. -/
theorem Rests.string_end {rest : List Char} (h : texts.Rests .string ('"' :: rest) text') :
    ∃ rest', text' = '"' :: rest' ∧ texts.Twins rest rest' := by
  rcases h.cons with rfl | ⟨front, suffix, code, rfl, rfl⟩ | ⟨hmode, -⟩
  · exact ⟨rest, rfl, .behind rest⟩
  · exact ⟨_, rfl, .ahead ((List.suffix_cons '"' front).trans suffix) code⟩
  · cases hmode

/-- A backslash and the character that it escapes: the gap cannot stand between them. -/
theorem Rests.string_escape {c : Char} {rest : List Char}
    (h : texts.Rests .string ('\\' :: c :: rest) text') :
    ∃ rest', text' = '\\' :: c :: rest' ∧ texts.Rests .string rest rest' := by
  rcases h.cons with rfl | ⟨front, suffix, code, hrest, rfl⟩ | ⟨hmode, -⟩
  · exact ⟨rest, rfl, .behind rest⟩
  · cases front with
    | nil => cases code
    | cons d front =>
      obtain ⟨rfl, rfl⟩ := List.cons.inj hrest
      refine ⟨_, rfl, .ahead ?_ code⟩
      exact ((List.suffix_cons c front).trans (List.suffix_cons '\\' _)).trans suffix
  · cases hmode

end Respacing

namespace Text

theorem ne_of_hexValue? {c : Char} {n : Nat} (h : hexValue? c = some n) : c ≠ '"' ∧ c ≠ '\\' := by
  constructor
  · rintro rfl
    cases h
  · rintro rfl
    cases h

theorem ne_of_hexCode? {a b c d : Char} {code : Nat} (h : hexCode? a b c d = some code) :
    ∀ e ∈ [a, b, c, d], e ≠ '"' ∧ e ≠ '\\' := by
  simp only [hexCode?, Option.bind_eq_bind, Option.bind_eq_some_iff] at h
  obtain ⟨_, ha, _, hb, _, hc, _, hd, -⟩ := h
  simp only [List.forall_mem_cons]
  exact ⟨ne_of_hexValue? ha, ne_of_hexValue? hb, ne_of_hexValue? hc, ne_of_hexValue? hd, by simp⟩

end Text

namespace Reader

section

variable {texts : Respacing} {text text' : List Char}

/-- The remainder of a string is read alike, wherever the string is said to start. -/
theorem stringTail_rests {opening opening' content rest : List Char}
    (h : texts.Rests .string text text')
    (hread : stringTail opening text = .ok (content, rest)) :
    ∃ rest', stringTail opening' text' = .ok (content, rest') ∧ texts.Twins rest rest' := by
  fun_induction stringTail opening text generalizing content text' with
  | case1 => cases hread
  | case2 rest =>
    cases hread
    obtain ⟨rest', rfl, hrest⟩ := h.string_end
    exact ⟨rest', by rw [stringTail.eq_def]; rfl, hrest⟩
  | case3 rest => cases hread
  | case4 => cases hread
  | case5 h₁ h₂ h₃ h₄ after code hcode _ _ ih =>
    obtain ⟨tail, rfl, htail⟩ := withChar_eq_ok hread
    obtain ⟨digits', rfl, hdigits⟩ := h.string_escape
    obtain ⟨after', rfl, hafter⟩ : ∃ after', digits' = [h₁, h₂, h₃, h₄] ++ after' ∧
        texts.Rests .string after after' := hdigits.string_drop (Text.ne_of_hexCode? hcode)
    obtain ⟨rest', hread', hrest⟩ := ih hafter htail
    refine ⟨rest', ?_, hrest⟩
    rw [stringTail.eq_def]
    simp only [List.cons_append, List.nil_append, if_neg (show ¬ '\\' = '"' by decide),
      if_neg (show ¬ '\\' = '\n' by decide), if_true, hcode, hread']
    rfl
  | case6 h₁ h₂ h₃ h₄ after hcode => cases hread
  | case7 digits hshort => cases hread
  | case8 c after hc _ _ ih =>
    obtain ⟨tail, rfl, htail⟩ := withChar_eq_ok hread
    obtain ⟨after', rfl, hafter⟩ := h.string_escape
    obtain ⟨rest', hread', hrest⟩ := ih hafter htail
    refine ⟨rest', ?_, hrest⟩
    rw [stringTail.eq_def]
    simp only [if_neg (show ¬ '\\' = '"' by decide), if_neg (show ¬ '\\' = '\n' by decide), if_true,
      hread']
    rfl
  | case9 c rest hquote hnewline hback ih =>
    obtain ⟨tail, rfl, htail⟩ := withChar_eq_ok hread
    obtain ⟨more', rfl, hmore⟩ := h.string_tail hquote hback
    obtain ⟨rest', hread', hrest⟩ := ih hmore htail
    refine ⟨rest', ?_, hrest⟩
    rw [stringTail.eq_def]
    simp only [if_neg hquote, if_neg hnewline, if_neg hback, hread']
    rfl

/-- The opening quote of a string. -/
theorem eatQuote?_twins (h : texts.Twins text text') {rest : List Char}
    (heat : eat? '"' text = some rest) :
    ∃ rest', eat? '"' text' = some rest' ∧ texts.Rests .string rest rest' := by
  obtain rfl := eat?_eq_some heat
  rcases h.cons with rfl | ⟨front, suffix, code, rfl, rfl⟩ | ⟨-, hblank, -⟩
  · exact ⟨rest, heat, .behind rest⟩
  · exact ⟨_, eat?_self '"' _, .ahead ((List.suffix_cons '"' front).trans suffix) code⟩
  · cases hblank

theorem tracking_string : Tracking texts string string := by
  intro text text' h
  rw [string, string, expect, expect]
  cases heat : eat? '"' text with
  | none => exact Tracks.fault
  | some rest =>
    obtain ⟨rest', heat', hrest⟩ := eatQuote?_twins h heat
    rw [heat']
    dsimp only [ok_bind]
    cases hread : stringTail text rest with
    | error fault => trivial
    | ok found =>
      obtain ⟨after, hread', hafter⟩ := stringTail_rests hrest hread
      rw [hread']
      exact Tracks.ok _ hafter

end

end Reader

end Dialogue
