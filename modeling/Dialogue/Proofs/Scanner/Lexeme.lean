import Dialogue.Proofs.Progress.Lexeme
import Dialogue.Scanner.Lexeme

/-!
# Scanners refine readers

A cursor `Stands` before a text if the source is some text, as long as the cursor says, and then
that text. From such a cursor no slice is missing, and a scanner that `Refines` a reader comes to
what the reader comes to, at a cursor that stands before what is left: the lengths by which the
cursor was moved are the lengths of what was read. Scans in a row refine readings in a row
(`Agrees.bind`), so every scanner has one such statement, put together from those of the scanners it
calls. This module has them for gaps and lexemes.
-/

namespace Dialogue

open Text (byteLength splitAtByte? skipBlanks slices? sliceTo? sliceFrom? slice? isBlank hexValue?
  hexCode? charOfCode)

/-! ## Slices at the end of a front -/

namespace Text

theorem slices?_byteLength (front back : List Char) :
    slices? (byteLength front) (front ++ back) = some (front, back) := by
  rw [slices?, if_pos (by rw [byteLength_append]; omega), splitAtByte?_byteLength]

theorem sliceTo?_byteLength (front back : List Char) :
    sliceTo? (byteLength front) (front ++ back) = some front := by
  rw [sliceTo?, slices?_byteLength, Option.map_some]

theorem sliceFrom?_byteLength (front back : List Char) :
    sliceFrom? (byteLength front) (front ++ back) = some back := by
  rw [sliceFrom?, slices?_byteLength, Option.map_some]

theorem slice?_byteLength (front middle back : List Char) :
    slice? (byteLength front) (byteLength front + byteLength middle) (front ++ (middle ++ back)) =
      some middle := by
  rw [slice?, if_pos (Nat.le_add_right _ _), sliceFrom?_byteLength, Option.bind_some,
    Nat.add_sub_cancel_left, sliceTo?_byteLength]

/-- A slice that exists ends where its length says. -/
theorem eq_append_of_sliceTo? {offset : Nat} {text front : List Char}
    (h : sliceTo? offset text = some front) :
    byteLength front = offset ∧ ∃ back, text = front ++ back := by
  induction text generalizing offset front with
  | nil =>
    by_cases hle : offset ≤ byteLength []
    · rw [sliceTo?, slices?, if_pos hle] at h
      rw [← Option.some.inj h]
      exact ⟨(Nat.le_zero.1 hle).symm, [], rfl⟩
    · rw [sliceTo?, slices?, if_neg hle] at h
      cases h
  | cons c text ih =>
    rw [sliceTo?, slices?, byteLength, splitAtByte?] at h
    by_cases hle : offset ≤ c.utf8Size + byteLength text
    · rw [if_pos hle] at h
      by_cases hzero : offset = 0
      · rw [if_pos hzero] at h
        rw [← Option.some.inj h]
        exact ⟨hzero.symm, c :: text, rfl⟩
      · rw [if_neg hzero] at h
        by_cases hinside : offset < c.utf8Size
        · rw [if_pos hinside] at h
          cases h
        · rw [if_neg hinside, Option.map_map] at h
          obtain ⟨⟨inner, back⟩, hinner, rfl⟩ := Option.map_eq_some_iff.1 h
          have hslice : sliceTo? (offset - c.utf8Size) text = some inner := by
            rw [sliceTo?, slices?, if_pos (by omega), hinner, Option.map_some]
          obtain ⟨hlength, back, htext⟩ := ih hslice
          refine ⟨?_, back, by rw [htext]; rfl⟩
          show c.utf8Size + byteLength inner = offset
          omega
    · rw [if_neg hle] at h
      cases h

/-! ## Gaps in turns -/

/-- What follows a comment is skipped from the newline that ends it. -/
theorem skipComment_eq (text : List Char) :
    skipComment text = skip (text.dropWhile (· != '\n')) := by
  induction text with
  | nil => rw [skipComment, List.dropWhile_nil, skip]
  | cons c text ih =>
    rw [skipComment, List.dropWhile_cons]
    by_cases hc : c = '\n'
    · simp [hc, skip_newline]
    · simp [hc, ih]

/-- A gap is skipped in turns: blanks, and then a comment if there is one. -/
theorem skip_eq_of_skipBlanks (text : List Char) :
    skip text =
      match Reader.eatText? ['/', '/'] (skipBlanks text) with
      | some rest => skip (rest.dropWhile (· != '\n'))
      | none => skipBlanks text := by
  rw [← skip_skipBlanks]
  cases hblanks : skipBlanks text with
  | nil => rw [skip]; rfl
  | cons c rest =>
    have hc : isBlank c = false := by
      have hhead := List.head?_dropWhile_not isBlank text
      rw [show text.dropWhile isBlank = c :: rest from hblanks] at hhead
      simpa using hhead
    rcases skip_cons_cases c rest with ⟨more, heq, hskip⟩ | ⟨hblank, -⟩ | ⟨hskip, -, hnot⟩
    · rw [hskip, heq, skipComment_eq]
      rfl
    · rw [hc] at hblank
      cases hblank
    · rw [hskip]
      cases heat : Reader.eatText? ['/', '/'] (c :: rest) with
      | none => rfl
      | some more => exact absurd (Reader.eatText?_eq_some heat) (hnot more)

end Text

/-! ## Readers that have no name elsewhere -/

namespace Reader

/-- Reads a fixed text. -/
def expectText (expected : String) (text : List Char) : Except Fault (List Char) :=
  match eatText? expected.toList text with
  | some rest => .ok rest
  | none => fault (.expected expected) text

/-- Reads a word and what follows it. -/
def atWord {α : Type} (word : String) (read : Reader α) : Reader α := fun text => do
  read (← expectWord word text)

/-- Reads a numeral for its value. -/
def number : Reader Double := fun text => do
  let ((_, value), rest) ← numeral text
  .ok (value, rest)

/-- Reads the code of a character, four hexadecimal digits. -/
def code : Reader Char
  | h₁ :: h₂ :: h₃ :: h₄ :: after =>
    match hexCode? h₁ h₂ h₃ h₄ with
    | some number => .ok (charOfCode number, after)
    | none => fault .invalidEscape (h₁ :: h₂ :: h₃ :: h₄ :: after)
  | short => fault .invalidEscape short

/-- Reads what follows a backslash in a string. -/
def escapeSequence : Reader Char
  | [] => fault .unterminatedString []
  | c :: rest => if c = 'u' then code rest else .ok (unescape c, rest)

theorem takes_code (text : List Char) : Takes 1 (fun _ => True) text (code text) := by
  fun_cases code text with
  | case1 h₁ h₂ h₃ h₄ after number hcode =>
    exact Takes.ok trivial (Left.append [h₁, h₂, h₃, h₄] after) (by simp)
  | case2 => exact Takes.fault (Left.refl _) (by simp)
  | case3 => exact Takes.fault (Left.refl _) (by simp)

theorem takes_escapeSequence (text : List Char) :
    Takes 1 (fun _ => True) text (escapeSequence text) := by
  cases text with
  | nil => exact Takes.fault (Left.refl []) (by simp)
  | cons c rest =>
    have hrest := Left.cons c rest
    rw [escapeSequence]
    split
    · exact ((takes_code rest).within hrest).mono (by omega)
    · exact Takes.ok trivial hrest (by omega)

end Reader

namespace Scanner

/-! ## Refinement -/

/-- A cursor of a source stands before a text. -/
def Stands (source : List Char) (cursor : Nat) (text : List Char) : Prop :=
  ∃ before, source = before ++ text ∧ cursor = byteLength before

/-- What a scan of a source and a reading have in common: the same value, or the same cause, and
places that correspond. -/
def Agrees {α : Type} (source : List Char) :
    Scanned α → Except Fault (α × List Char) → Prop
  | .done value cursor, .ok (found, rest) => value = found ∧ Stands source cursor rest
  | .fault cause offset, .error fault => cause = fault.cause ∧ Stands source offset fault.rest
  | _, _ => False

/-- A scanner comes to what a reader comes to, from every cursor that stands before a text. -/
def Refines {α : Type} (scan : Scanner α) (read : Reader α) : Prop :=
  ∀ ⦃source : List Char⦄ ⦃cursor : Nat⦄ ⦃text : List Char⦄, Stands source cursor text →
    Agrees source (scan.on source cursor) (read text)

/-- A scanner without a value passes what a reader without a value reads. -/
def Passes (scan : Scanner Unit) (read : List Char → Except Fault (List Char)) : Prop :=
  ∀ ⦃source : List Char⦄ ⦃cursor : Nat⦄ ⦃text : List Char⦄, Stands source cursor text →
    Agrees source (scan.on source cursor) (do .ok ((), ← read text))

variable {α β : Type} {source text rest : List Char} {cursor : Nat}

namespace Stands

theorem start (source : List Char) : Stands source 0 source := ⟨[], rfl, rfl⟩

theorem slice (h : Stands source cursor text) : sliceFrom? cursor source = some text := by
  obtain ⟨before, rfl, rfl⟩ := h
  exact Text.sliceFrom?_byteLength before text

theorem byteLength_eq (h : Stands source cursor text) :
    byteLength source = cursor + byteLength text := by
  obtain ⟨before, rfl, rfl⟩ := h
  exact Text.byteLength_append before text

/-- What lies between two cursors is a slice. -/
theorem slice_eq {front : List Char} {cursor' : Nat} (h : Stands source cursor (front ++ rest))
    (h' : Stands source cursor' rest) : slice? cursor cursor' source = some front := by
  obtain ⟨before, rfl, rfl⟩ := h
  have hlength := byteLength_eq h'
  rw [Text.byteLength_append, Text.byteLength_append] at hlength
  rw [show cursor' = byteLength before + byteLength front by omega]
  exact Text.slice?_byteLength before front rest

/-- A cursor that is moved by the length of a front stands after it. -/
theorem append {front : List Char} (h : Stands source cursor (front ++ rest)) :
    Stands source (cursor + byteLength front) rest := by
  obtain ⟨before, rfl, rfl⟩ := h
  exact ⟨before ++ front, (List.append_assoc ..).symm, (Text.byteLength_append ..).symm⟩

theorem cons {c : Char} (h : Stands source cursor (c :: rest)) :
    Stands source (cursor + c.utf8Size) rest := by
  have hfront : Stands source cursor ([c] ++ rest) := h
  exact hfront.append

/-- No text before which a cursor stands is longer than the source. -/
theorem length_le (h : Stands source cursor text) : text.length ≤ source.length := by
  obtain ⟨before, rfl, -⟩ := h
  rw [List.length_append]
  omega

end Stands

/-! ## Steps -/

theorem bind_apply (scan : Scanner α) (next : α → Scanner β) (source : List Char) (cursor : Nat) :
    (scan >>= next).on source cursor =
      match scan.on source cursor with
      | .done value cursor => (next value).on source cursor
      | .fault cause offset => .fault cause offset
      | .cut => .cut := rfl

theorem bind_done {scan : Scanner α} {next : α → Scanner β} {value : α} {cursor' : Nat}
    (h : scan.on source cursor = .done value cursor') :
    (scan >>= next).on source cursor = (next value).on source cursor' := by
  rw [bind_apply, h]

theorem bind_fault {scan : Scanner α} {next : α → Scanner β} {cause : Cause} {offset : Nat}
    (h : scan.on source cursor = .fault cause offset) :
    (scan >>= next).on source cursor = .fault cause offset := by
  rw [bind_apply, h]

theorem cursor_bind (next : Nat → Scanner β) (source : List Char) (cursor : Nat) :
    (Scanner.cursor >>= next).on source cursor = (next cursor).on source cursor := rfl

theorem advance_bind (bytes : Nat) (next : Unit → Scanner β) (source : List Char) (cursor : Nat) :
    (advance bytes >>= next).on source cursor = (next ()).on source (cursor + bytes) := rfl

theorem moveTo_bind (offset : Nat) (next : Unit → Scanner β) (source : List Char) (cursor : Nat) :
    (moveTo offset >>= next).on source cursor = (next ()).on source offset := rfl

theorem bound_bind (next : Nat → Scanner β) (source : List Char) (cursor : Nat) :
    (bound >>= next).on source cursor = (next (source.length + 1)).on source cursor := rfl

theorem sliced_eq {slice : List Char → Option α} {value : α} (h : slice source = some value)
    (cursor : Nat) : (sliced slice).on source cursor = .done value cursor := by
  simp only [sliced, h]

theorem remaining_eq (h : Stands source cursor text) :
    remaining.on source cursor = .done text cursor := sliced_eq h.slice cursor

theorem peek_eq (h : Stands source cursor text) : peek.on source cursor = .done text.head? cursor :=
  bind_done (remaining_eq h)

theorem peekWord_eq (h : Stands source cursor text) :
    peekWord.on source cursor = .done ((Reader.word? text).map Prod.fst) cursor :=
  bind_done (remaining_eq h)

theorem atEnd_eq (h : Stands source cursor text) :
    atEnd.on source cursor = .done text.isEmpty cursor := by
  have hlength := h.byteLength_eq
  have hend : decide (byteLength source ≤ cursor) = text.isEmpty := by
    cases text with
    | nil => exact decide_eq_true (by rw [hlength, byteLength]; omega)
    | cons c text =>
      have hpos : 0 < c.utf8Size := c.utf8Size_pos
      exact decide_eq_false (by rw [hlength, byteLength]; omega)
  simp only [atEnd, hend]

theorem sees_eq (h : Stands source cursor text) (c : Char) :
    (sees c).on source cursor = .done (Reader.eat? c text).isSome cursor := by
  rw [sees, bind_done (peek_eq h)]
  cases text with
  | nil => rfl
  | cons d text =>
    show Scanned.done (some d == some c) cursor = .done (Reader.eat? c (d :: text)).isSome cursor
    by_cases hd : d = c
    · simp [hd, Reader.eat?]
    · simp [hd, Reader.eat?]

theorem eat_eq (h : Stands source cursor text) (c : Char) :
    (eat c).on source cursor =
      .done (Reader.eat? c text).isSome
        (if (Reader.eat? c text).isSome then cursor + c.utf8Size else cursor) := by
  rw [eat, bind_done (sees_eq h c)]
  cases (Reader.eat? c text).isSome <;> rfl

theorem isPrefixOf_eq (expected text : List Char) :
    expected.isPrefixOf text = (Reader.eatText? expected text).isSome := by
  induction expected generalizing text with
  | nil => rfl
  | cons c expected ih =>
    cases text with
    | nil => rfl
    | cons d text =>
      rw [List.isPrefixOf, Reader.eatText?]
      by_cases hd : d = c
      · simp [hd, ih]
      · simp [hd, Ne.symm hd]

theorem startsWith_eq (h : Stands source cursor text) (expected : List Char) :
    (startsWith expected).on source cursor =
      .done (Reader.eatText? expected text).isSome cursor := by
  rw [startsWith, bind_done (remaining_eq h), isPrefixOf_eq]
  rfl

theorem seesWord_eq (h : Stands source cursor text) (word : String) :
    (seesWord word).on source cursor = .done (Reader.eatWord? word text).isSome cursor := by
  rw [seesWord, bind_done (peekWord_eq h), Reader.eatWord?]
  cases Reader.word? text with
  | none => rfl
  | some found =>
    show Scanned.done (some found.1 == some word) cursor = _
    by_cases hword : found.1 = word
    · simp [hword]
    · simp [hword]

/-! ## Scans in a row -/

namespace Agrees

theorem of_ok {scanned : Scanned α} {value : α} (h : Agrees source scanned (.ok (value, rest))) :
    ∃ cursor, scanned = .done value cursor ∧ Stands source cursor rest := by
  cases scanned with
  | done found cursor =>
    obtain ⟨rfl, hrest⟩ := h
    exact ⟨cursor, rfl, hrest⟩
  | fault cause offset => exact h.elim
  | cut => exact h.elim

theorem of_error {scanned : Scanned α} {fault : Fault} (h : Agrees source scanned (.error fault)) :
    ∃ offset, scanned = .fault fault.cause offset ∧ Stands source offset fault.rest := by
  cases scanned with
  | done found cursor => exact h.elim
  | fault cause offset =>
    obtain ⟨rfl, hrest⟩ := h
    exact ⟨offset, rfl, hrest⟩
  | cut => exact h.elim

theorem pure (h : Stands source cursor rest) (value : α) :
    Agrees source ((Pure.pure value : Scanner α).on source cursor) (.ok (value, rest)) :=
  ⟨rfl, h⟩

theorem fault (h : Stands source cursor rest) (cause : Cause) :
    Agrees source ((Scanner.fault cause : Scanner α).on source cursor) (Reader.fault cause rest) :=
  ⟨rfl, h⟩

/-- What is scanned after something that was read. -/
theorem bindOk {scan : Scanner α} {next : α → Scanner β} {read : Except Fault (α × List Char)}
    {more : α × List Char → Except Fault (β × List Char)}
    (h : Agrees source (scan.on source cursor) read)
    (hnext : ∀ {value cursor rest}, read = .ok (value, rest) → Stands source cursor rest →
      Agrees source ((next value).on source cursor) (more (value, rest))) :
    Agrees source ((scan >>= next).on source cursor) (read >>= more) := by
  cases read with
  | ok found =>
    obtain ⟨cursor', hscan, hrest⟩ := h.of_ok
    rw [bind_done hscan]
    exact hnext rfl hrest
  | error fault =>
    obtain ⟨offset, hscan, hrest⟩ := h.of_error
    rw [bind_fault hscan]
    exact ⟨rfl, hrest⟩

theorem bind {scan : Scanner α} {next : α → Scanner β} {read : Except Fault (α × List Char)}
    {more : α × List Char → Except Fault (β × List Char)}
    (h : Agrees source (scan.on source cursor) read)
    (hnext : ∀ {value cursor rest}, Stands source cursor rest →
      Agrees source ((next value).on source cursor) (more (value, rest))) :
    Agrees source ((scan >>= next).on source cursor) (read >>= more) :=
  bindOk h fun _ hrest => hnext hrest

/-- What is scanned after something without a value. -/
theorem pass {scan : Scanner Unit} {next : Unit → Scanner β}
    {read : List Char → Except Fault (List Char)}
    {more : List Char → Except Fault (β × List Char)} (h : Stands source cursor text)
    (hscan : Passes scan read)
    (hnext : ∀ {cursor rest}, Stands source cursor rest →
      Agrees source ((next ()).on source cursor) (more rest)) :
    Agrees source ((scan >>= next).on source cursor) (read text >>= more) := by
  have hpass : Agrees source ((scan >>= next).on source cursor)
      ((read text >>= fun rest => .ok ((), rest)) >>= fun found => more found.2) :=
    bind (hscan h) hnext
  cases hread : read text with
  | ok rest =>
    rw [hread] at hpass
    exact hpass
  | error fault =>
    rw [hread] at hpass
    exact hpass

/-- What is scanned after a look ahead, if that finds something and if it does not. -/
theorem look {test : Scanner Bool} {yes no : Scanner β}
    {find? : List Char → Option (List Char)} {taken : List Char → Except Fault (β × List Char)}
    {left : Except Fault (β × List Char)}
    (htest : test.on source cursor = .done (find? text).isSome cursor)
    (hyes : ∀ rest, find? text = some rest → Agrees source (yes.on source cursor) (taken rest))
    (hno : Agrees source (no.on source cursor) left) :
    Agrees source ((test >>= fun b => if b = true then yes else no).on source cursor)
      (match find? text with
        | some rest => taken rest
        | none => left) := by
  rw [bind_done htest]
  cases hfind : find? text with
  | none => exact hno
  | some rest => exact hyes rest hfind

/-- What is scanned after a look ahead, if that does not find something and if it does. -/
theorem lookElse {test : Scanner Bool} {yes no : Scanner β}
    {find? : List Char → Option (List Char)} {taken : List Char → Except Fault (β × List Char)}
    {left : Except Fault (β × List Char)}
    (htest : test.on source cursor = .done (find? text).isSome cursor)
    (hyes : ∀ rest, find? text = some rest → Agrees source (yes.on source cursor) (taken rest))
    (hno : Agrees source (no.on source cursor) left) :
    Agrees source ((test >>= fun b => if b = true then yes else no).on source cursor)
      (match find? text with
        | none => left
        | some rest => taken rest) := by
  have hlook := look htest hyes hno
  cases hfind : find? text <;> (rw [hfind] at hlook; exact hlook)

/-- What is scanned after a test that a reader makes, too. -/
theorem test {test : Scanner Bool} {yes no : Scanner β} {b : Bool}
    {taken left : Except Fault (β × List Char)} (htest : test.on source cursor = .done b cursor)
    (hyes : b = true → Agrees source (yes.on source cursor) taken)
    (hno : Agrees source (no.on source cursor) left) :
    Agrees source ((test >>= fun b => if b = true then yes else no).on source cursor)
      (if b = true then taken else left) := by
  rw [bind_done htest]
  cases b with
  | true => exact hyes rfl
  | false => exact hno

/-- What is scanned after a character that may come next. -/
theorem eat {c : Char} {yes no : Scanner β} {taken : List Char → Except Fault (β × List Char)}
    {left : Except Fault (β × List Char)} (h : Stands source cursor text)
    (hyes : ∀ {cursor rest}, Stands source cursor rest →
      Agrees source (yes.on source cursor) (taken rest))
    (hno : Agrees source (no.on source cursor) left) :
    Agrees source ((Scanner.eat c >>= fun b => if b = true then yes else no).on source cursor)
      (match Reader.eat? c text with
        | some rest => taken rest
        | none => left) := by
  rw [bind_done (eat_eq h c)]
  cases heat : Reader.eat? c text with
  | none => exact hno
  | some rest =>
    rw [Reader.eat?_eq_some heat] at h
    exact hyes h.cons

end Agrees

/-! ## Fixed texts -/

theorem passes_expect (c : Char) : Passes (expect c) (Reader.expect c) := by
  intro source cursor text h
  have hagrees : Agrees source ((expect c).on source cursor)
      (match Reader.eat? c text with
        | some rest => .ok ((), rest)
        | none => Reader.fault (.expected c.toString) text) :=
    Agrees.eat h (fun h => Agrees.pure h ()) (Agrees.fault h _)
  rw [Reader.expect]
  cases heat : Reader.eat? c text <;> (rw [heat] at hagrees; exact hagrees)

theorem passes_expectText (expected : String) :
    Passes (expectText expected) (Reader.expectText expected) := by
  intro source cursor text h
  have hagrees : Agrees source ((expectText expected).on source cursor)
      (match Reader.eatText? expected.toList text with
        | some rest => .ok ((), rest)
        | none => Reader.fault (.expected expected) text) := by
    refine Agrees.look (startsWith_eq h _) (fun rest heat => ?_) (Agrees.fault h _)
    rw [Reader.eatText?_eq_some heat] at h
    exact ⟨rfl, h.append⟩
  rw [Reader.expectText]
  cases heat : Reader.eatText? expected.toList text <;> (rw [heat] at hagrees; exact hagrees)

/-- What is scanned after a fixed text. -/
theorem Agrees.fixedText {next : Unit → Scanner β}
    {taken : List Char → Except Fault (β × List Char)} (h : Stands source cursor text)
    (expected : String) (hnext : ∀ {cursor rest}, Stands source cursor rest →
      Agrees source ((next ()).on source cursor) (taken rest)) :
    Agrees source ((expectText expected >>= next).on source cursor)
      (match Reader.eatText? expected.toList text with
        | none => Reader.fault (.expected expected) text
        | some rest => taken rest) := by
  have hpass := Agrees.pass h (passes_expectText expected) hnext
  rw [Reader.expectText] at hpass
  cases heat : Reader.eatText? expected.toList text <;> (rw [heat] at hpass; exact hpass)

/-! ## Words -/

theorem Stands.word {word : String} (h : Stands source cursor text)
    (hword : Reader.word? text = some (word, rest)) :
    Stands source (cursor + byteLength word.toList) rest := by
  rw [(Reader.word?_eq_some hword).2] at h
  exact h.append

/-- What is scanned from a word on that is known to come next. -/
theorem Agrees.atWord {scanned : Scanned α} {word : String} {read : Reader α}
    (h : Agrees source scanned (Reader.atWord word read text))
    (hword : Reader.eatWord? word text = some rest) : Agrees source scanned (read rest) := by
  rw [Reader.atWord, Reader.expectWord, hword] at h
  exact h

theorem passes_expectWord (word : String) : Passes (expectWord word) (Reader.expectWord word) := by
  intro source cursor text h
  have hagrees : Agrees source ((expectWord word).on source cursor)
      (match Reader.eatWord? word text with
        | some rest => .ok ((), rest)
        | none => Reader.fault (.expectedWord word) text) :=
    Agrees.look (seesWord_eq h word)
      (fun rest heat => ⟨rfl, h.word (Reader.word?_of_eatWord? heat)⟩) (Agrees.fault h _)
  rw [Reader.expectWord]
  cases heat : Reader.eatWord? word text <;> (rw [heat] at hagrees; exact hagrees)

theorem refines_identifier : Refines identifier Reader.identifier := by
  intro source cursor text h
  rw [identifier, bind_done (peekWord_eq h), Reader.identifier]
  cases hword : Reader.word? text with
  | none => exact Agrees.fault h _
  | some found => exact ⟨rfl, h.word hword⟩

/-! ## Gaps -/

/-- Characters that satisfy a test are passed one by one. -/
theorem exists_advanceWhile (test : Char → Bool) {n : Nat} (h : Stands source cursor text)
    (hn : text.length < n) :
    ∃ cursor', (advanceWhile test n).on source cursor = .done () cursor' ∧
      Stands source cursor' (text.dropWhile test) := by
  induction n generalizing cursor text with
  | zero => omega
  | succ n ih =>
    rw [advanceWhile, bind_done (peek_eq h)]
    cases text with
    | nil => exact ⟨cursor, rfl, h⟩
    | cons c text =>
      rw [List.dropWhile_cons, List.head?_cons]
      dsimp only
      split
      · exact ih h.cons (by simpa using hn)
      · exact ⟨cursor, rfl, h⟩

theorem exists_skipGap {n : Nat} (h : Stands source cursor text) (hn : text.length < n) :
    ∃ cursor', (skipGap n).on source cursor = .done () cursor' ∧
      Stands source cursor' (Text.skip text) := by
  induction n generalizing cursor text with
  | zero => omega
  | succ n ih =>
    obtain ⟨blanks, hblanks, hstands⟩ := exists_advanceWhile isBlank h hn
    have hlength := (List.dropWhile_suffix (p := isBlank) (l := text)).length_le
    rw [skipGap, bind_done hblanks, bind_done (startsWith_eq hstands _),
      Text.skip_eq_of_skipBlanks text, Text.skipBlanks]
    cases heat : Reader.eatText? ['/', '/'] (text.dropWhile isBlank) with
    | none => exact ⟨blanks, rfl, hstands⟩
    | some rest =>
      obtain ⟨comment, hcomment, hstands⟩ :=
        exists_advanceWhile (· != '\n') hstands (by omega : _ < n + 1)
      have heq := Reader.eatText?_eq_some heat
      have hdrop : (text.dropWhile isBlank).dropWhile (· != '\n') =
          rest.dropWhile (· != '\n') := by rw [heq]; rfl
      have hrest := (List.dropWhile_suffix (p := (· != '\n')) (l := rest)).length_le
      rw [heq, List.length_append] at hlength
      rw [hdrop] at hstands
      show ∃ cursor',
        (advanceWhile (· != '\n') (n + 1) >>= fun _ => skipGap n).on source blanks = _ ∧ _
      rw [bind_done hcomment]
      exact ih hstands (by simp at hlength; omega)

theorem exists_skip (h : Stands source cursor text) :
    ∃ cursor', skip.on source cursor = .done () cursor' ∧ Stands source cursor' (Text.skip text) :=
  exists_skipGap h (Nat.lt_succ_of_le h.length_le)

/-- What is scanned after a gap. -/
theorem Agrees.skip {next : Unit → Scanner β} {read : Except Fault (β × List Char)}
    (h : Stands source cursor text)
    (hnext : ∀ {cursor}, Stands source cursor (Text.skip text) →
      Agrees source ((next ()).on source cursor) read) :
    Agrees source ((Scanner.skip >>= next).on source cursor) read := by
  obtain ⟨cursor', hskip, hstands⟩ := exists_skip h
  rw [bind_done hskip]
  exact hnext hstands

theorem passes_skip : Passes skip fun text => .ok (Text.skip text) := by
  intro source cursor text h
  obtain ⟨cursor', hskip, hstands⟩ := exists_skip h
  rw [hskip]
  exact ⟨rfl, hstands⟩

theorem passes_expectBlank (after : String) :
    Passes (expectBlank after) (Reader.expectBlank after) := by
  intro source cursor text h
  rw [expectBlank, bind_done (peek_eq h)]
  cases text with
  | nil => exact Agrees.fault h _
  | cons c text =>
    rw [Reader.expectBlank, List.head?_cons]
    dsimp only
    split
    · rename_i hblank
      have hskip : Text.skip (c :: text) = Text.skip text := by
        rw [← Text.skip_skipBlanks, ← Text.skip_skipBlanks text, Text.skipBlanks,
          List.dropWhile_cons_of_pos hblank, Text.skipBlanks]
      rw [← hskip]
      exact passes_skip h
    · exact Agrees.fault h _

/-! ## Numerals -/

theorem refines_numeral : Refines numeral Reader.number := by
  intro source cursor text h
  rw [numeral, bind_done (remaining_eq h), Reader.number, Reader.numeral]
  cases hrun : Reader.numeralRun? text with
  | none => exact Agrees.fault h _
  | some found =>
    obtain ⟨run, rest⟩ := found
    dsimp only
    cases Numeral.ofText? run with
    | none => exact Agrees.fault h _
    | some value =>
      rw [(Reader.numeralRun?_eq_some hrun).2] at h
      exact ⟨rfl, h.append⟩

/-! ## Strings -/

theorem utf8Size_of_hexValue? {c : Char} {n : Nat} (h : hexValue? c = some n) :
    c.utf8Size = 1 := by
  have hle : c.toNat ≤ 127 := by
    rw [hexValue?] at h
    split at h
    · rename_i hc
      exact Nat.le_trans hc.2 (by decide)
    · split at h
      · rename_i hc
        exact Nat.le_trans hc.2 (by decide)
      · split at h
        · rename_i hc
          exact Nat.le_trans hc.2 (by decide)
        · cases h
  exact Char.utf8Size_eq_one_iff.2 hle

/-- Digits that have a number are as many as their bytes. -/
theorem byteLength_of_hexNumber? {digits : List Char} {total code : Nat}
    (h : digits.foldlM (fun total c => (hexValue? c).map (total * 16 + ·)) total = some code) :
    byteLength digits = digits.length := by
  induction digits generalizing total with
  | nil => rfl
  | cons c digits ih =>
    rw [List.foldlM_cons, Option.bind_eq_bind, Option.bind_eq_some_iff] at h
    obtain ⟨next, hnext, hrest⟩ := h
    obtain ⟨value, hvalue, -⟩ := Option.map_eq_some_iff.1 hnext
    rw [byteLength, List.length_cons, ih hrest, utf8Size_of_hexValue? hvalue, Nat.add_comm]

theorem hexNumber?_four (h₁ h₂ h₃ h₄ : Char) :
    hexNumber? [h₁, h₂, h₃, h₄] = hexCode? h₁ h₂ h₃ h₄ := by
  simp only [hexNumber?, hexCode?, List.foldlM_cons, List.foldlM_nil]
  cases hexValue? h₁ <;> cases hexValue? h₂ <;> cases hexValue? h₃ <;> cases hexValue? h₄ <;> simp

/-- A slice of four bytes that has a number is four digits. -/
theorem exists_of_hexNumber? {text : List Char} {code : Nat}
    (h : (sliceTo? 4 text).bind hexNumber? = some code) :
    ∃ h₁ h₂ h₃ h₄ after, text = [h₁, h₂, h₃, h₄] ++ after ∧ hexCode? h₁ h₂ h₃ h₄ = some code ∧
      byteLength [h₁, h₂, h₃, h₄] = 4 := by
  obtain ⟨digits, hslice, hcode⟩ := Option.bind_eq_some_iff.1 h
  obtain ⟨hlength, after, rfl⟩ := Text.eq_append_of_sliceTo? hslice
  have hfour : digits.length = 4 := by rw [← byteLength_of_hexNumber? hcode, hlength]
  obtain ⟨h₁, h₂, h₃, h₄, rfl⟩ : ∃ h₁ h₂ h₃ h₄, digits = [h₁, h₂, h₃, h₄] := by
    match digits, hfour with
    | [h₁, h₂, h₃, h₄], _ => exact ⟨h₁, h₂, h₃, h₄, rfl⟩
  exact ⟨h₁, h₂, h₃, h₄, after, rfl, by rw [← hexNumber?_four, hcode], hlength⟩

/-- Four digits have a number, and so has the slice of four bytes that they are. -/
theorem hexNumber?_of_hexCode? {h₁ h₂ h₃ h₄ : Char} {code : Nat}
    (h : hexCode? h₁ h₂ h₃ h₄ = some code) (after : List Char) :
    (sliceTo? 4 ([h₁, h₂, h₃, h₄] ++ after)).bind hexNumber? = some code := by
  rw [← hexNumber?_four] at h
  have hlength : byteLength [h₁, h₂, h₃, h₄] = 4 := byteLength_of_hexNumber? h
  rw [← hlength, Text.sliceTo?_byteLength, Option.bind_some, h]

theorem refines_code : Refines code Reader.code := by
  intro source cursor text h
  rw [code, bind_done (remaining_eq h)]
  cases hslice : (sliceTo? 4 text).bind hexNumber? with
  | some number =>
    obtain ⟨h₁, h₂, h₃, h₄, after, rfl, hcode, hlength⟩ := exists_of_hexNumber? hslice
    have hread : Reader.code ([h₁, h₂, h₃, h₄] ++ after) = .ok (charOfCode number, after) := by
      simp only [List.cons_append, List.nil_append, Reader.code, hcode]
    have hafter := h.append
    rw [hlength] at hafter
    rw [hread]
    exact ⟨rfl, hafter⟩
  | none =>
    have hread : Reader.code text = Reader.fault .invalidEscape text := by
      fun_cases Reader.code text with
      | case1 h₁ h₂ h₃ h₄ after number hcode =>
        have hsome := hexNumber?_of_hexCode? hcode after
        simp only [List.cons_append, List.nil_append, hslice] at hsome
        cases hsome
      | case2 => rfl
      | case3 => rfl
    rw [hread]
    exact Agrees.fault h _

theorem refines_escaped : Refines escaped Reader.escapeSequence := by
  intro source cursor text h
  rw [escaped, bind_done (peek_eq h)]
  cases text with
  | nil => exact Agrees.fault h _
  | cons c rest =>
    show Agrees source (Scanner.on (if c = 'u' then code else pure (Reader.unescape c)) source
      (cursor + c.utf8Size)) (Reader.escapeSequence (c :: rest))
    rw [Reader.escapeSequence]
    split
    · exact refines_code h.cons
    · exact ⟨rfl, h.cons⟩

/-- A string goes on after a backslash with what the backslash stands for. -/
theorem stringTail_backslash (opening rest : List Char) :
    Reader.stringTail opening ('\\' :: rest) = (do
      let (c, after) ← Reader.escapeSequence rest
      Reader.withChar c (Reader.stringTail opening after)) := by
  cases rest with
  | nil => rfl
  | cons c rest =>
    rw [Reader.escapeSequence]
    by_cases hc : c = 'u'
    · rw [if_pos hc, hc]
      fun_cases Reader.code rest with
      | case1 h₁ h₂ h₃ h₄ after number hcode =>
        simp only [Reader.stringTail, Char.reduceEq, if_false, if_true, hcode]
        rfl
      | case2 h₁ h₂ h₃ h₄ after hcode =>
        simp only [Reader.stringTail, Char.reduceEq, if_false, if_true, hcode]
        rfl
      | case3 hshort =>
        simp only [Reader.stringTail, Char.reduceEq, if_false, if_true]
        rfl
    · rw [if_neg hc]
      simp only [Reader.stringTail, Char.reduceEq, if_false, if_true]
      rfl

theorem Agrees.withChar {scan : Scanner (List Char)} {read : Except Fault (List Char × List Char)}
    (h : Agrees source (scan.on source cursor) read) (c : Char) :
    Agrees source ((do return c :: (← scan) : Scanner (List Char)).on source cursor)
      (Reader.withChar c read) :=
  Agrees.bind h fun h => Agrees.pure h _

/-- Each round of the scan of a string passes a character at least, and an end that is missing is
reported where the string starts. -/
theorem agrees_stringTail {opening : List Char} {start n : Nat}
    (hopening : Stands source start opening) (h : Stands source cursor text)
    (hn : text.length < n) :
    Agrees source ((stringTail start n).on source cursor) (Reader.stringTail opening text) := by
  induction n generalizing cursor text with
  | zero => omega
  | succ n ih =>
    rw [stringTail, bind_done (peek_eq h)]
    cases text with
    | nil => exact ⟨rfl, hopening⟩
    | cons c rest =>
      rw [List.length_cons] at hn
      rw [List.head?_cons]
      dsimp only
      by_cases hback : c = '\\'
      · subst hback
        rw [stringTail_backslash, if_neg (by decide), if_neg (by decide), if_pos rfl, advance_bind]
        refine Agrees.bindOk (refines_escaped h.cons) fun hread hafter => ?_
        have htakes := Reader.takes_escapeSequence rest
        rw [hread] at htakes
        have hlength := htakes.2.length_le
        exact Agrees.withChar (ih hafter (by omega)) _
      · by_cases hquote : c = '"'
        · subst hquote
          rw [Reader.stringTail.eq_def]
          show Agrees source (.done [] (cursor + 1)) (.ok ([], rest))
          exact ⟨rfl, h.cons⟩
        · by_cases hnewline : c = '\n'
          · subst hnewline
            rw [Reader.stringTail.eq_def]
            show Agrees source (.fault .unterminatedString start) (Reader.fault _ opening)
            exact ⟨rfl, hopening⟩
          · rw [if_neg hnewline, if_neg hquote, if_neg hback,
              Reader.stringTail_cons hquote hback hnewline]
            exact Agrees.withChar (ih h.cons (by omega)) c

theorem refines_string : Refines string Reader.string := by
  intro source cursor text h
  rw [string, Reader.string, cursor_bind]
  refine Agrees.pass h (passes_expect _) fun hrest => ?_
  rw [bound_bind]
  exact Agrees.bind (agrees_stringTail h hrest (Nat.lt_succ_of_le hrest.length_le))
    fun h => Agrees.pure h _

end Scanner

end Dialogue
