import Dialogue.Proofs.Written.Lexeme

/-!
# What lexemes take from a text

Reading goes forward: what a reader leaves is the end of the text it was given, and a fault lies
in that text. `Takes` says so of one reading, together with what kind of value comes out, how many
characters are taken at least, and that the reading did not stop at its bound. Readings in a row
take what each of them takes (`Takes.bind`), so every reader has one such statement, put together
from those of the readers it calls. This module has them for gaps and lexemes.
-/

namespace Dialogue

open Text (isBlank skip skipBlanks skipComment hexCode? charOfCode)

/-- What a computation of two steps has given. -/
theorem bind_eq_ok_iff {ε α β : Type} {step : Except ε α} {next : α → Except ε β} {result : β} :
    (step >>= next) = .ok result ↔ ∃ value, step = .ok value ∧ next value = .ok result := by
  cases step with
  | error e =>
    constructor
    · intro h
      cases h
    · rintro ⟨value, h, -⟩
      cases h
  | ok value =>
    constructor
    · intro h
      exact ⟨value, rfl, h⟩
    · rintro ⟨_, h, hnext⟩
      cases h
      exact hnext

/-! ## What is left of a text -/

/-- A text is what is left of another one after some characters, at least a given number. -/
structure Left (least : Nat) (text rest : List Char) : Prop where
  suffix : rest <:+ text
  length_le : rest.length + least ≤ text.length

namespace Left

variable {j k : Nat} {text middle rest : List Char}

theorem refl (text : List Char) : Left 0 text text := ⟨List.suffix_refl text, Nat.le_refl _⟩

theorem trans (h : Left j text middle) (h' : Left k middle rest) : Left (j + k) text rest := by
  refine ⟨h'.suffix.trans h.suffix, ?_⟩
  have hj := h.length_le
  have hk := h'.length_le
  omega

theorem mono (h : Left k text rest) (hjk : j ≤ k) : Left j text rest := by
  refine ⟨h.suffix, ?_⟩
  have hk := h.length_le
  omega

theorem cons (c : Char) (rest : List Char) : Left 1 (c :: rest) rest :=
  ⟨List.suffix_cons c rest, Nat.le_refl _⟩

theorem append (front rest : List Char) : Left front.length (front ++ rest) rest := by
  refine ⟨List.suffix_append front rest, ?_⟩
  rw [List.length_append]
  omega

/-- Nothing else is left before characters than what is left after them. -/
theorem of_append {front : List Char} (h : text = front ++ rest) (hfront : front ≠ []) :
    Left 1 text rest := by
  rw [h]
  exact (append front rest).mono (List.length_pos_iff.2 hfront)

end Left

namespace Text

/-- What skipping a gap does at a character: the gap goes on with a comment or with a blank, or it
has ended. -/
theorem skip_cons_cases (c : Char) (rest : List Char) :
    (∃ more, c :: rest = '/' :: '/' :: more ∧ skip (c :: rest) = skipComment more) ∨
    (isBlank c = true ∧ skip (c :: rest) = skip rest) ∨
    (skip (c :: rest) = c :: rest ∧ isBlank c = false ∧
      ∀ more, c :: rest ≠ '/' :: '/' :: more) := by
  by_cases hcomment : ∃ more, c :: rest = '/' :: '/' :: more
  · obtain ⟨more, heq⟩ := hcomment
    refine Or.inl ⟨more, heq, ?_⟩
    rw [heq, skip]
  · have hskip : skip (c :: rest) = if isBlank c then skip rest else c :: rest := by
      rw [skip]
      intro more hc hrest
      exact hcomment ⟨more, by rw [hc, hrest]⟩
    cases hblank : isBlank c with
    | true => exact Or.inr (Or.inl ⟨rfl, by rw [hskip, hblank, if_pos rfl]⟩)
    | false =>
      refine Or.inr (Or.inr ⟨by rw [hskip, hblank, if_neg Bool.false_ne_true], rfl, ?_⟩)
      exact fun more heq => hcomment ⟨more, heq⟩

/-- Skipping a gap may start with its leading blanks. -/
theorem skip_skipBlanks (text : List Char) : skip (skipBlanks text) = skip text := by
  induction text with
  | nil => rfl
  | cons c rest ih =>
    rw [skipBlanks, List.dropWhile_cons]
    split
    · rename_i hblank
      rcases skip_cons_cases c rest with ⟨more, heq, -⟩ | ⟨-, hskip⟩ | ⟨-, hsolid, -⟩
      · rw [(List.cons.inj heq).1] at hblank
        cases hblank
      · rw [hskip]
        exact ih
      · rw [hsolid] at hblank
        cases hblank
    · rfl

mutual

theorem skip_suffix : ∀ text : List Char, skip text <:+ text
  | [] => List.suffix_refl []
  | c :: rest => by
    rcases skip_cons_cases c rest with ⟨more, heq, hskip⟩ | ⟨-, hskip⟩ | ⟨hskip, -⟩
    · have hlength : more.length ≤ rest.length := by
        rw [(List.cons.inj heq).2, List.length_cons]
        omega
      rw [hskip, heq]
      exact (skipComment_suffix more).trans (Left.append ['/', '/'] more).suffix
    · rw [hskip]
      exact (skip_suffix rest).trans (List.suffix_cons c rest)
    · exact ⟨[], by rw [hskip, List.nil_append]⟩
termination_by text => text.length

theorem skipComment_suffix : ∀ text : List Char, skipComment text <:+ text
  | [] => List.suffix_refl []
  | c :: rest => by
    rw [skipComment]
    split
    · exact (skip_suffix rest).trans (List.suffix_cons c rest)
    · exact (skipComment_suffix rest).trans (List.suffix_cons c rest)
termination_by text => text.length

end

end Text

theorem Left.skip (text : List Char) : Left 0 text (skip text) :=
  ⟨Text.skip_suffix text, (Text.skip_suffix text).length_le⟩

namespace Reader

/-! ## One reading -/

/-- What a reading of a text comes to: a value of some kind, with at least a number of characters
taken, or a fault that lies in the text and is not that a bound was reached. -/
def Takes {α : Type} (least : Nat) (good : α → Prop) (text : List Char) :
    Except Fault (α × List Char) → Prop
  | .ok (value, rest) => good value ∧ Left least text rest
  | .error fault => Left 0 text fault.rest ∧ fault.cause ≠ .exhausted

namespace Takes

variable {α β : Type} {i j k : Nat} {good : α → Prop} {aim : β → Prop} {text inner : List Char}

theorem ok {value : α} {rest : List Char} (hvalue : good value) (hrest : Left k text rest)
    (hjk : j ≤ k) : Takes j good text (.ok (value, rest)) :=
  ⟨hvalue, hrest.mono hjk⟩

theorem fault {cause : Cause} {rest : List Char} (hrest : Left k text rest)
    (hcause : cause ≠ .exhausted) : Takes j good text (Reader.fault cause rest) :=
  ⟨hrest.mono (Nat.zero_le k), hcause⟩

theorem mono {read : Except Fault (α × List Char)} (h : Takes k good text read) (hjk : j ≤ k) :
    Takes j good text read := by
  cases read with
  | ok found => exact ⟨h.1, h.2.mono hjk⟩
  | error fault => exact h

theorem imp {aim : α → Prop} {read : Except Fault (α × List Char)} (h : Takes k good text read)
    (himp : ∀ value, good value → aim value) : Takes k aim text read := by
  cases read with
  | ok found => exact ⟨himp found.1 h.1, h.2⟩
  | error fault => exact h

/-- A reading of what is left of a text is a reading of the text. -/
theorem within {read : Except Fault (α × List Char)} (h : Takes k good inner read)
    (hinner : Left i text inner) : Takes (i + k) good text read := by
  cases read with
  | ok found => exact ⟨h.1, hinner.trans h.2⟩
  | error fault => exact ⟨(hinner.trans h.1).mono (Nat.zero_le _), h.2⟩

/-- What is read after something else. -/
theorem bind {read : Except Fault (α × List Char)}
    {next : α × List Char → Except Fault (β × List Char)} (hinner : Left i text inner)
    (h : Takes k good inner read)
    (hnext : ∀ value rest, good value → Left (i + k) text rest →
      Takes j aim text (next (value, rest))) : Takes j aim text (read >>= next) := by
  have hread := h.within hinner
  cases read with
  | ok found => exact hnext found.1 found.2 hread.1 hread.2
  | error fault => exact hread

end Takes

/-! ## Fixed texts -/

theorem eat?_eq_some {c : Char} {text rest : List Char} (h : eat? c text = some rest) :
    text = c :: rest := by
  cases text with
  | nil => cases h
  | cons d more =>
    rw [eat?] at h
    split at h
    · rename_i hd
      rw [hd, Option.some.inj h]
    · cases h

theorem Left.of_eat? {c : Char} {text rest : List Char} (h : eat? c text = some rest) :
    Left 1 text rest := by
  rw [eat?_eq_some h]
  exact Left.cons c rest

/-- What follows a character, unless a test of what follows forbids to read it. -/
def eatUnless (c : Char) (forbids : List Char → Bool) (text : List Char) : Option (List Char) :=
  match eat? c text with
  | some rest => if forbids rest then none else some rest
  | none => none

theorem eatUnless_eq_some {c : Char} {forbids : List Char → Bool} {text rest : List Char}
    (h : eatUnless c forbids text = some rest) : text = c :: rest := by
  rw [eatUnless] at h
  split at h
  · rename_i more heat
    split at h
    · cases h
    · rw [← Option.some.inj h]
      exact eat?_eq_some heat
  · cases h

theorem Left.of_eatUnless {c : Char} {forbids : List Char → Bool} {text rest : List Char}
    (h : eatUnless c forbids text = some rest) : Left 1 text rest := by
  rw [eatUnless_eq_some h]
  exact Left.cons c rest

theorem eatText?_eq_some {expected text rest : List Char}
    (h : eatText? expected text = some rest) : text = expected ++ rest := by
  induction expected generalizing text with
  | nil => exact Option.some.inj h
  | cons c cs ih =>
    cases text with
    | nil => cases h
    | cons d more =>
      rw [eatText?] at h
      split at h
      · rename_i hd
        rw [hd, ih h, List.cons_append]
      · cases h

section

variable {α : Type} {i j : Nat} {good : α → Prop} {text inner : List Char}
  {next : List Char → Except Fault (α × List Char)}

/-- What is read after a character. -/
theorem Takes.expect {c : Char} (hinner : Left i text inner)
    (hnext : ∀ rest, Left (i + 1) text rest → Takes j good text (next rest)) :
    Takes j good text (expect c inner >>= next) := by
  rw [Reader.expect]
  cases heat : eat? c inner with
  | none => exact Takes.fault hinner (by simp)
  | some rest => exact hnext rest (hinner.trans (Left.of_eat? heat))

/-- What is read after a blank. -/
theorem Takes.expectBlank {after : String} (hinner : Left i text inner)
    (hnext : ∀ rest, Left (i + 1) text rest → Takes j good text (next rest)) :
    Takes j good text (expectBlank after inner >>= next) := by
  cases inner with
  | nil => exact Takes.fault hinner (by simp)
  | cons c rest =>
    rw [Reader.expectBlank]
    split
    · exact hnext (skip rest) (hinner.trans ((Left.cons c rest).trans (Left.skip rest)))
    · exact Takes.fault hinner (by simp)

end

/-! ## Words -/

/-- A word that is found is a word, and stands in front of what follows it. -/
theorem word?_eq_some {text rest : List Char} {x : String} (h : word? text = some (x, rest)) :
    isSymbol x = true ∧ text = x.toList ++ rest := by
  cases text with
  | nil => cases h
  | cons c more =>
    rw [word?] at h
    split at h
    · rename_i hc
      obtain ⟨rfl, rfl⟩ := Prod.mk.inj (Option.some.inj h)
      rw [isSymbol, String.toList_ofList]
      refine ⟨?_, ?_⟩
      · simp only [hc, Bool.true_and]
        exact List.all_takeWhile
      · rw [List.cons_append, List.takeWhile_append_dropWhile]
    · cases h

theorem toList_ne_nil {x : String} (h : isSymbol x = true) : x.toList ≠ [] := by
  obtain ⟨c, cs, hx, -⟩ := exists_of_isSymbol h
  rw [hx]
  exact List.cons_ne_nil c cs

theorem Left.of_word? {text rest : List Char} {x : String} (h : word? text = some (x, rest)) :
    Left 1 text rest := by
  obtain ⟨hx, htext⟩ := word?_eq_some h
  exact Left.of_append htext (toList_ne_nil hx)

theorem word?_of_eatWord? {word : String} {text rest : List Char}
    (h : eatWord? word text = some rest) : word? text = some (word, rest) := by
  rw [eatWord?] at h
  split at h
  · rename_i actual more hword
    split at h
    · rename_i hactual
      rw [hword, hactual, Option.some.inj h]
    · cases h
  · cases h

theorem Left.of_eatWord? {word : String} {text rest : List Char}
    (h : eatWord? word text = some rest) : Left 1 text rest :=
  Left.of_word? (word?_of_eatWord? h)

/-- What is read after a given word. -/
theorem Takes.expectWord {α : Type} {i j : Nat} {good : α → Prop} {text inner : List Char}
    {next : List Char → Except Fault (α × List Char)} {word : String} (hinner : Left i text inner)
    (hnext : ∀ rest, Left (i + 1) text rest → Takes j good text (next rest)) :
    Takes j good text (expectWord word inner >>= next) := by
  rw [Reader.expectWord]
  cases heat : eatWord? word inner with
  | none => exact Takes.fault hinner (by simp)
  | some rest => exact hnext rest (hinner.trans (Left.of_eatWord? heat))

theorem takes_identifier (text : List Char) :
    Takes 1 (fun x => isSymbol x = true) text (identifier text) := by
  rw [identifier]
  cases hword : word? text with
  | none => exact Takes.fault (Left.refl text) (by simp)
  | some found => exact ⟨(word?_eq_some hword).1, Left.of_word? hword⟩

/-! ## Numerals -/

theorem numeralRun?_eq_some {text run rest : List Char}
    (h : numeralRun? text = some (run, rest)) : run ≠ [] ∧ text = run ++ rest := by
  have hsign : text = (text.take 1).filter (· == '-') ++
      text.drop ((text.take 1).filter (· == '-')).length := by
    cases text with
    | nil => rfl
    | cons c more =>
      by_cases hc : c = '-'
      · simp [hc]
      · simp [hc]
  rw [numeralRun?] at h
  split at h
  · cases h
  · rename_i hbody
    obtain ⟨rfl, rfl⟩ := Prod.mk.inj (Option.some.inj h)
    refine ⟨?_, ?_⟩
    · simp only [List.isEmpty_iff] at hbody
      exact List.append_ne_nil_of_right_ne_nil _ hbody
    · rw [List.append_assoc, List.takeWhile_append_dropWhile]
      exact hsign

theorem takes_numeral (text : List Char) :
    Takes 1 (fun found => Readable found.2) text (numeral text) := by
  cases hrun : numeralRun? text with
  | none =>
    rw [numeral, hrun]
    exact Takes.fault (Left.refl text) (by simp)
  | some found =>
    obtain ⟨run, rest⟩ := found
    obtain ⟨hne, htext⟩ := numeralRun?_eq_some hrun
    cases hvalue : Numeral.ofText? run with
    | none =>
      rw [numeral, hrun]
      simp only [hvalue]
      exact Takes.fault (Left.refl text) (by simp)
    | some value =>
      have hread : numeral text = .ok ((run, value.toDouble), rest) := by
        rw [numeral, hrun]
        simp only [hvalue]
      rw [hread]
      exact ⟨⟨text, run, rest, hread⟩, Left.of_append htext hne⟩

/-! ## Strings -/

theorem Takes.withChar {text : List Char} {c : Char} {read : Except Fault (List Char × List Char)}
    (h : Takes 1 (fun _ => True) text read) :
    Takes 1 (fun _ => True) text (withChar c read) :=
  Takes.bind (Left.refl text) h fun _ _ _ hrest => Takes.ok trivial hrest (by omega)

/-- The remainder of a string lies in the text from its opening quote, where a string without an
end is reported. -/
theorem takes_stringTail {opening text : List Char} (h : Left 1 opening text) :
    Takes 1 (fun _ => True) opening (stringTail opening text) := by
  fun_induction stringTail opening text with
  | case1 => exact Takes.fault (Left.refl opening) (by simp)
  | case2 rest => exact Takes.ok trivial (h.trans (Left.cons _ rest)) (by omega)
  | case3 rest => exact Takes.fault (Left.refl opening) (by simp)
  | case4 => exact Takes.fault (h.trans (Left.cons _ [])) (by simp)
  | case5 h₁ h₂ h₃ h₄ after code hcode _ _ ih =>
    refine Takes.withChar (ih ?_)
    exact (h.trans (Left.append ['\\', 'u', h₁, h₂, h₃, h₄] after)).mono (by simp)
  | case6 h₁ h₂ h₃ h₄ after hcode =>
    exact Takes.fault (h.trans (Left.append ['\\', 'u'] _)) (by simp)
  | case7 digits hshort => exact Takes.fault (h.trans (Left.append ['\\', 'u'] _)) (by simp)
  | case8 c after hc _ _ ih =>
    exact Takes.withChar (ih ((h.trans (Left.append ['\\', c] after)).mono (by simp)))
  | case9 c rest hquote hnewline hback ih =>
    exact Takes.withChar (ih ((h.trans (Left.cons c rest)).mono (by omega)))

theorem takes_string (text : List Char) : Takes 1 (fun _ => True) text (string text) := by
  rw [string]
  refine Takes.expect (Left.refl text) fun rest hrest => ?_
  refine Takes.bind (Left.refl text) (takes_stringTail (hrest.mono (by omega))) ?_
  intro content rest _ hrest
  exact Takes.ok trivial hrest (by omega)

end Reader

end Dialogue
