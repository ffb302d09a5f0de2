import Dialogue.Proofs.Scanner.Report
import Dialogue.Proofs.Scanner.Statement
import Dialogue.Proofs.Seam.Statement

/-!
# Scanning is safe

A scan can go wrong in three ways: a slice is missing, because the cursor has left the source or
stands inside a character; a loop does not pass anything, and stops at its bound; or a fault is
reported at an offset that its report cannot be made for. For each part of a script, its scanner
refines its reader (`Part.refines`), which takes at least something from the text (`Part.takes`) and
is the same for every bound above the length of the text (`Part.read_of_le`). `Script.scan_safe`
concludes that none of the three happens, from whatever offset between characters a part is scanned,
and that the scan of a whole source comes to what is read from it.
-/

namespace Dialogue

open Text (Position byteLength isBoundary)

/-! ## Parts of a script -/

/-- The parts of a script that have a scanner of their own, by what is scanned as their value. A
form of statement that has no scanner but that of all statements is not listed. -/
inductive Part : Type → Type where
  | gap : Part Unit
  | mark (c : Char) : Part Unit
  | arrow : Part Unit
  | blank (after : String) : Part Unit
  | word (expected : String) : Part Unit
  | identifier : Part String
  | numeral : Part Double
  | escapeSequence : Part Char
  | string : Part String
  | fieldKey : Part String
  | object : Part (List (String × Expr))
  | arguments : Part (List Expr)
  | elements : Part (List Expr)
  | parameters : Part (List String)
  | primary : Part Expr
  | trailed : Part Expr
  | operand : Part Expr
  | level (number : Nat) : Part Expr
  | expression : Part Expr
  | condition : Part (Option Expr)
  | branch : Part (Branch Statement)
  | branches : Part (List (Branch Statement))
  | scheme : Part (List (String × Expr))
  | conditional : Part (List (Branch Statement))
  | fork : Part (List (Branch Statement))
  | input : Part Statement
  | run : Part Statement
  | use : Part Statement
  | define : Part Statement
  | assignment : Part Statement
  | statement : Part Statement
  | block : Part (List Statement)
  | statements : Part (List Statement)

namespace Part

open Reader

variable {α : Type}

/-- The scanner of a part, under a bound on nesting and repetition. -/
def scan (n : Nat) : Part α → Scanner α
  | .gap => Scanner.skip
  | .mark c => Scanner.expect c
  | .arrow => Scanner.expectText "->"
  | .blank after => Scanner.expectBlank after
  | .word expected => Scanner.expectWord expected
  | .identifier => Scanner.identifier
  | .numeral => Scanner.numeral
  | .escapeSequence => Scanner.escaped
  | .string => Scanner.string
  | .fieldKey => Scanner.fieldKey
  | .object => Scanner.object (Scanner.expressionAt n) n
  | .arguments => Scanner.enclosed ')' (Scanner.expressionAt n) n
  | .elements => Scanner.enclosed ']' (Scanner.expressionAt n) n
  | .parameters => Scanner.enclosed ')' Scanner.identifier n
  | .primary => Scanner.primary (Scanner.expressionAt n) n
  | .trailed => Scanner.trailed (Scanner.expressionAt n) n
  | .operand => Scanner.operand (Scanner.expressionAt n) n n
  | .level number =>
    Scanner.binary (Scanner.operand (Scanner.expressionAt n) n n) n (Operator.levels.drop number)
  | .expression => Scanner.expressionAt n
  | .condition => Scanner.condition (Scanner.expressionAt n)
  | .branch => Scanner.branch (Scanner.expressionAt n) (Scanner.statementAt n) n
  | .branches => Scanner.branches (Scanner.expressionAt n) (Scanner.statementAt n) n
  | .scheme => Scanner.scheme (Scanner.expressionAt n) n
  | .conditional => Scanner.conditional (Scanner.expressionAt n) (Scanner.statementAt n) n n
  | .fork => Scanner.fork (Scanner.expressionAt n) (Scanner.statementAt n) n
  | .input => Scanner.input (Scanner.expressionAt n) (Scanner.statementAt n) n
  | .run => Scanner.run (Scanner.expressionAt n) (Scanner.statementAt n) n
  | .use => Scanner.use n
  | .define => Scanner.define (Scanner.statementAt n) n
  | .assignment => Scanner.assignment (Scanner.expressionAt n) n
  | .statement => Scanner.statementAt n
  | .block => Scanner.block (Scanner.statementAt n) n
  | .statements => Scanner.statements (Scanner.statementAt n) n

/-- The reader of a part, under a bound on nesting and repetition. -/
def read (n : Nat) : Part α → Reader α
  | .gap => fun text => .ok ((), Text.skip text)
  | .mark c => fun text => do .ok ((), ← expect c text)
  | .arrow => fun text => do .ok ((), ← expectText "->" text)
  | .blank after => fun text => do .ok ((), ← expectBlank after text)
  | .word expected => fun text => do .ok ((), ← expectWord expected text)
  | .identifier => Reader.identifier
  | .numeral => Reader.number
  | .escapeSequence => Reader.escapeSequence
  | .string => Reader.string
  | .fieldKey => Reader.fieldKey
  | .object => Reader.object (expressionAt n) n
  | .arguments => enclosed ')' (expressionAt n) n
  | .elements => enclosed ']' (expressionAt n) n
  | .parameters => enclosed ')' Reader.identifier n
  | .primary => Reader.primary (expressionAt n) n
  | .trailed => Reader.trailed (expressionAt n) n
  | .operand => Reader.operand (expressionAt n) n n
  | .level number =>
    binary (Reader.operand (expressionAt n) n n) n (Operator.levels.drop number)
  | .expression => expressionAt n
  | .condition => Reader.condition (expressionAt n)
  | .branch => Reader.branch (expressionAt n) (statementAt n) n
  | .branches => Reader.branches (expressionAt n) (statementAt n) n
  | .scheme => Reader.scheme (expressionAt n) n
  | .conditional => atWord "if" (Reader.conditional (expressionAt n) (statementAt n) n n)
  | .fork =>
    atWord "fork" fun text => Reader.branches (expressionAt n) (statementAt n) n (Text.skip text)
  | .input => atWord "input" (Reader.input (expressionAt n) (statementAt n) n)
  | .run => atWord "run" (Reader.run (expressionAt n) (statementAt n) n)
  | .use => atWord "use" (Reader.use n)
  | .define => atWord "def" (Reader.define (statementAt n) n)
  | .assignment => Reader.assignment (expressionAt n) n
  | .statement => statementAt n
  | .block => Reader.block (statementAt n) n
  | .statements => Reader.statements (statementAt n) n

/-- A part is scanned as it is read. -/
theorem refines (part : Part α) (n : Nat) : (part.scan n).Refines (part.read n) := by
  have hexpr : (Scanner.expressionAt n).Refines (expressionAt n) := Scanner.refines_expressionAt n
  have hstatement : (Scanner.statementAt n).Refines (statementAt n) :=
    Scanner.refines_statementAt n
  cases part with
  | gap => exact Scanner.passes_skip
  | mark c => exact Scanner.passes_expect c
  | arrow => exact Scanner.passes_expectText "->"
  | blank after => exact Scanner.passes_expectBlank after
  | word expected => exact Scanner.passes_expectWord expected
  | identifier => exact Scanner.refines_identifier
  | numeral => exact Scanner.refines_numeral
  | escapeSequence => exact Scanner.refines_escaped
  | string => exact Scanner.refines_string
  | fieldKey => exact Scanner.refines_fieldKey
  | object => exact Scanner.refines_object hexpr n
  | arguments => exact Scanner.refines_enclosed hexpr n
  | elements => exact Scanner.refines_enclosed hexpr n
  | parameters => exact Scanner.refines_enclosed Scanner.refines_identifier n
  | primary => exact Scanner.refines_primary hexpr n
  | trailed => exact Scanner.refines_trailed hexpr n
  | operand => exact Scanner.refines_operand hexpr n n
  | level number => exact Scanner.refines_binary (Scanner.refines_operand hexpr n n) n _
  | expression => exact hexpr
  | condition => exact Scanner.refines_condition hexpr
  | branch => exact Scanner.refines_branch hexpr hstatement n
  | branches => exact Scanner.refines_branches hexpr hstatement n
  | scheme => exact Scanner.refines_scheme hexpr n
  | conditional => exact Scanner.refines_conditional hexpr hstatement n n
  | fork => exact Scanner.refines_fork hexpr hstatement n
  | input => exact Scanner.refines_input hexpr hstatement n
  | run => exact Scanner.refines_run hexpr hstatement n
  | use => exact Scanner.refines_use n
  | define => exact Scanner.refines_define hstatement n
  | assignment => exact Scanner.refines_assignment hexpr n
  | statement => exact hstatement
  | block => exact Scanner.refines_block hstatement n
  | statements => exact Scanner.refines_statements hstatement n

/-! ## What a part takes -/

/-- How many characters a part takes at least: only a gap and a list of statements may take none. -/
def least : Part α → Nat
  | .gap => 0
  | .statements => 0
  | _ => 1

/-- What is read from a word on takes the word at least. -/
theorem takes_atWord {word : String} {read : Reader α} {good : α → Prop} {text : List Char}
    (h : ∀ rest, rest.length < text.length → Takes 1 good rest (read rest)) :
    Takes 1 good text (atWord word read text) := by
  refine Takes.expectWord (Left.refl text) fun rest hrest => ?_
  have hlength := hrest.length_le
  exact ((h rest (by omega)).within hrest).mono (by omega)

/-- The text that is left when a part has been read lies in the text that it is read from, and so
does a fault. -/
theorem takes (part : Part α) {n : Nat} {text : List Char} (hn : text.length < n) :
    Takes part.least (fun _ => True) text (part.read n text) := by
  obtain ⟨n, rfl⟩ := Nat.exists_eq_succ_of_ne_zero (Nat.ne_zero_of_lt hn)
  have hle : text.length ≤ n := Nat.le_of_lt_succ hn
  have hexpr := takesBelow_expressionAt (n + 1)
  have hall := takesBelow_statementAt (n + 1)
  have hstatement : TakesBelow n Statement.Plain (statementAt (n + 1)) :=
    fun text hlength => hall text (by omega)
  have hoperand : TakesBelow (n + 1) Expr.Plain
      (Reader.operand (expressionAt (n + 1)) (n + 1) (n + 1)) :=
    fun text hlength => takes_operand hexpr (by omega) (by omega) hlength
  have hidentifier : TakesBelow (n + 1) (fun x => isSymbol x = true) Reader.identifier :=
    fun text _ => takes_identifier text
  have hanything : ∀ {good : α → Prop} (value : α), good value → True := fun _ _ => trivial
  cases part with
  | gap => exact Takes.ok trivial (Left.skip text) (Nat.le_refl 0)
  | mark c =>
    exact Takes.expect (Left.refl text) fun rest hrest => Takes.ok trivial hrest (Nat.le_refl 1)
  | arrow =>
    show Takes 1 _ text (do .ok ((), ← expectText "->" text))
    rw [expectText]
    cases heat : eatText? "->".toList text with
    | none => exact Takes.fault (Left.refl text) (by simp)
    | some rest =>
      exact Takes.ok trivial (Left.of_append (eatText?_eq_some heat) (by decide)) (Nat.le_refl 1)
  | blank after =>
    exact Takes.expectBlank (Left.refl text) fun rest hrest =>
      Takes.ok trivial hrest (Nat.le_refl 1)
  | word expected =>
    exact Takes.expectWord (Left.refl text) fun rest hrest => Takes.ok trivial hrest (Nat.le_refl 1)
  | identifier => exact (takes_identifier text).imp hanything
  | numeral =>
    exact Takes.bind (Left.refl text) (takes_numeral text) fun found rest _ hrest =>
      Takes.ok trivial hrest (Nat.le_refl 1)
  | escapeSequence => exact takes_escapeSequence text
  | string => exact takes_string text
  | fieldKey => exact takes_fieldKey text
  | object => exact (takes_object hexpr (by omega) (by omega)).imp hanything
  | arguments => exact (takes_enclosed hexpr hn hn).imp hanything
  | elements => exact (takes_enclosed hexpr hn hn).imp hanything
  | parameters => exact (takes_enclosed hidentifier hn hn).imp hanything
  | primary => exact (takes_primary hexpr (by omega) (by omega)).imp hanything
  | trailed =>
    show Takes 1 _ text _
    refine Takes.bind (Left.refl text) (takes_primary hexpr (by omega) (by omega)) ?_
    intro target rest htarget hrest
    have hlength := hrest.length_le
    have htrailers : Takes 0 Expr.Plain rest
        (trailers (expressionAt (n + 1)) (n + 1) (n + 1) target rest) :=
      takes_trailers hexpr (by omega) (by omega) (by omega) htarget
    exact ((htrailers.within hrest).mono (by omega)).imp hanything
  | operand => exact (hoperand text hn).imp hanything
  | level number =>
    exact (takesBelow_binary hoperand (Nat.le_refl _) _ text hn).imp hanything
  | expression => exact (hexpr text hn).imp hanything
  | condition => exact (takes_condition hexpr hn).imp hanything
  | branch => exact (takes_branch hexpr hstatement hle (by omega)).imp hanything
  | branches => exact (takes_branches hexpr hstatement hle (by omega)).imp hanything
  | scheme =>
    show Takes 1 _ text _
    refine Takes.expect (Left.refl text) fun rest hrest => ?_
    have hlength := hrest.length_le
    refine Takes.bind hrest (takes_object hexpr (by omega) (by omega)) fun fields rest _ hrest => ?_
    exact Takes.ok trivial (hrest.trans (Left.skip rest)) (by omega)
  | conditional =>
    exact (takes_atWord fun rest hlength =>
      takes_conditional hexpr hstatement (by omega) (by omega) (by omega)).imp hanything
  | fork =>
    refine takes_atWord fun rest hlength => ?_
    have hless := (Left.skip rest).length_le
    have hbranches : Takes 1 Branch.PlainEach (Text.skip rest)
        (Reader.branches (expressionAt (n + 1)) (statementAt (n + 1)) (n + 1) (Text.skip rest)) :=
      takes_branches hexpr hstatement (by omega) (by omega)
    exact ((hbranches.within (Left.skip rest)).mono (by omega)).imp hanything
  | input =>
    exact (takes_atWord fun rest hlength => takes_input hexpr hstatement (by omega)).imp hanything
  | run =>
    exact (takes_atWord fun rest hlength => takes_run hexpr hstatement (by omega)).imp hanything
  | use => exact (takes_atWord fun rest hlength => takes_use (by omega)).imp hanything
  | define =>
    exact (takes_atWord fun rest hlength => takes_define hstatement (by omega)).imp hanything
  | assignment => exact (takes_assignment hexpr hn hn).imp hanything
  | statement => exact (hall text hn).imp hanything
  | block => exact (takes_block hall (by omega) (by omega)).imp hanything
  | statements => exact (takes_statements hall hn hn).imp hanything

/-- Every bound above the length of a text gives the same reading. -/
theorem read_of_le (part : Part α) {n m : Nat} {text : List Char} (hn : text.length < n)
    (hnm : n ≤ m) : part.read m text = part.read n text := by
  have hexpr := local_expressionAt Seam.nil hnm
  have hstatement := sealed_statementAt Seam.nil hnm
  have hoperand := local_operand Seam.nil hexpr hnm hnm
  obtain ⟨doubt, hfollows⟩ :
      ∃ doubt, Follows [] doubt (part.read n text) (part.read m (text ++ [])) := by
    cases part with
    | object => exact ⟨sure, (local_object Seam.nil hexpr hnm).follows text⟩
    | arguments =>
      exact ⟨sure, follows_enclosed Seam.nil (by decide) hexpr unclosed_dangling hnm text⟩
    | elements =>
      exact ⟨sure, follows_enclosed Seam.nil (by decide) hexpr unclosed_dangling hnm text⟩
    | parameters =>
      exact ⟨sure, follows_enclosed Seam.nil (by decide) (local_identifier Seam.nil) unclosed_sure
        hnm text⟩
    | primary => exact ⟨sure, (local_primary Seam.nil hexpr hnm).follows text⟩
    | trailed =>
      exact ⟨sure, ((local_primary Seam.nil hexpr hnm).follows text).bindSure fun target rest =>
        follows_trailers Seam.nil hexpr hnm hnm target rest⟩
    | operand => exact ⟨sure, hoperand.follows text⟩
    | level number =>
      have hlevel := local_binary Seam.nil (hoperand.mono fun _ hrest => hrest.elim) hnm
        (Operator.levels.drop number)
      exact ⟨Dangling, hlevel.follows text⟩
    | expression => exact ⟨Dangling, hexpr.follows text⟩
    | condition => exact ⟨Halted, (local_condition Seam.nil hexpr).follows text⟩
    | branch => exact ⟨sure, (local_branch Seam.nil hexpr hstatement hnm).follows text⟩
    | branches => exact ⟨sure, (local_branches Seam.nil hexpr hstatement hnm).follows text⟩
    | scheme =>
      refine ⟨Halted, Follows.expect Seam.nil (by decide) text fun rest => ?_⟩
      exact ((local_object Seam.nil hexpr hnm).follows rest).bindSure fun fields rest =>
        Follows.okSkip Seam.nil fields rest
    | conditional =>
      exact ⟨sure, Follows.expectWord Seam.nil _ text
        (follows_conditional Seam.nil hexpr hstatement hnm hnm)⟩
    | fork =>
      exact ⟨sure, Follows.expectWord Seam.nil _ text
        ((local_branches Seam.nil hexpr hstatement hnm).skip Seam.nil)⟩
    | input =>
      exact ⟨sure, Follows.expectWord Seam.nil _ text
        (follows_input Seam.nil hexpr hstatement hnm)⟩
    | run =>
      exact ⟨Dangling, Follows.expectWord Seam.nil _ text
        (follows_run Seam.nil hexpr hstatement hnm)⟩
    | use => exact ⟨sure, Follows.expectWord Seam.nil _ text (follows_use Seam.nil hnm)⟩
    | define =>
      exact ⟨sure, Follows.expectWord Seam.nil _ text (follows_define Seam.nil hstatement hnm)⟩
    | assignment => exact ⟨Dangling, (local_assignment Seam.nil hexpr hnm).follows text⟩
    | statement => exact ⟨Dangling, hstatement.follows text⟩
    | block => exact ⟨sure, (local_block Seam.nil hstatement hnm).follows text⟩
    | statements => exact ⟨Ended, follows_statements Seam.nil hstatement hnm text⟩
    | _ =>
      -- the other readers have no bound
      refine ⟨sure, Follows.of_ok fun value rest hread => ?_⟩
      rw [List.append_nil, List.append_nil]
      exact hread
  rw [List.append_nil] at hfollows
  exact hfollows.eq_of_takes (part.takes hn)

end Part

/-! ## Where a scan ends -/

theorem Text.length_le_byteLength (text : List Char) : text.length ≤ byteLength text := by
  induction text with
  | nil => exact Nat.le_refl 0
  | cons c text ih =>
    have hpos : 0 < c.utf8Size := c.utf8Size_pos
    rw [List.length_cons, byteLength]
    omega

namespace Scanner

variable {α : Type} {source text rest : List Char} {cursor start : Nat}

theorem Stands.isBoundary (h : Stands source cursor text) : isBoundary source cursor = true := by
  obtain ⟨before, rfl, rfl⟩ := h
  exact Text.isBoundary_byteLength before text

/-- Each character that is left out of a text moves the cursor by a byte at least. -/
theorem Stands.add_le {least : Nat} (h : Stands source start text) (h' : Stands source cursor rest)
    (hleft : Left least text rest) : start + least ≤ cursor := by
  obtain ⟨taken, rfl⟩ := hleft.suffix
  have hlength := hleft.length_le
  have hstart := h.byteLength_eq
  have hcursor := h'.byteLength_eq
  have htaken := Text.length_le_byteLength taken
  rw [List.length_append] at hlength
  rw [Text.byteLength_append] at hstart
  omega

/-- Two cursors that stand before the same text are the same. -/
theorem Stands.unique {cursor' : Nat} (h : Stands source cursor text)
    (h' : Stands source cursor' text) : cursor = cursor' := by
  have hlength := h.byteLength_eq
  have hlength' := h'.byteLength_eq
  omega

/-- A reading determines the scans that agree with it. -/
theorem Agrees.unique {scanned scanned' : Scanned α} {read : Except Fault (α × List Char)}
    (h : Agrees source scanned read) (h' : Agrees source scanned' read) : scanned = scanned' := by
  cases read with
  | ok found =>
    obtain ⟨cursor, rfl, hrest⟩ := h.of_ok
    obtain ⟨cursor', rfl, hrest'⟩ := h'.of_ok
    rw [hrest.unique hrest']
  | error fault =>
    obtain ⟨offset, rfl, hrest⟩ := h.of_error
    obtain ⟨offset', rfl, hrest'⟩ := h'.of_error
    rw [hrest.unique hrest']

end Scanner

/-- What is right about the end of a scan: it ends between characters of the source, after the start
by what is taken at least, or reports a cause in the source at an offset between characters, not
before the start, that a position and a diagnostic can be made for; no slice is missing. -/
def Scanned.Safe {α : Type} (source : List Char) (start least : Nat) : Scanned α → Prop
  | .done _ cursor => isBoundary source cursor = true ∧ start + least ≤ cursor
  | .fault cause offset => cause ≠ .exhausted ∧ isBoundary source offset = true ∧ start ≤ offset ∧
      (Position.sliced? source offset).isSome = true ∧
      (Diagnostic.sliced? cause.code cause.message source offset).isSome = true
  | .cut => False

namespace Scanner

variable {α : Type} {source text : List Char} {start : Nat}

theorem Stands.isSome_sliced? (h : Stands source start text) (code : FaultCode)
    (message : String) : (Position.sliced? source start).isSome = true ∧
      (Diagnostic.sliced? code message source start).isSome = true := by
  obtain ⟨before, rfl, rfl⟩ := h
  rw [Position.sliced?_eq, Position.at?_byteLength, Diagnostic.sliced?_eq,
    Diagnostic.at?_byteLength]
  exact ⟨rfl, rfl⟩

/-- A scan that agrees with a reading ends where the reading does. -/
theorem Agrees.safe {scanned : Scanned α} {read : Except Fault (α × List Char)} {least : Nat}
    {good : α → Prop} (h : Agrees source scanned read) (hstart : Stands source start text)
    (htakes : Reader.Takes least good text read) : scanned.Safe source start least := by
  cases read with
  | ok found =>
    obtain ⟨cursor, rfl, hrest⟩ := h.of_ok
    exact ⟨hrest.isBoundary, hstart.add_le hrest htakes.2⟩
  | error fault =>
    obtain ⟨offset, rfl, hrest⟩ := h.of_error
    exact ⟨htakes.2, hrest.isBoundary, hstart.add_le hrest htakes.1, hrest.isSome_sliced? _ _⟩

end Scanner

/-- From a cursor that stands before a text, a part has one scan for all bounds above the length of
the source. -/
theorem Part.exists_scan {α : Type} (part : Part α) {source text : List Char} {start : Nat}
    (h : Scanner.Stands source start text) :
    ∃ scanned : Scanned α,
      (∀ n, source.length < n → (part.scan n).on source start = scanned) ∧
      scanned.Safe source start part.least := by
  have hlength := h.length_le
  have hscan := part.refines (source.length + 1) h
  refine ⟨_, fun n hn => ?_, hscan.safe h (part.takes (by omega))⟩
  have hread : part.read n text = part.read (source.length + 1) text :=
    part.read_of_le (by omega) hn
  rw [← hread] at hscan
  exact (part.refines n h).unique hscan

/-- A source is scanned as it is read. -/
theorem Script.scan?_eq (source : String) : Script.scan? source = some (Script.read source) := by
  have hagrees := Scanner.agrees_script source.toList
  have hplace := Reader.takes_script source.toList
  rw [Script.scan?, Script.read]
  cases hread : Reader.script source.toList with
  | ok P =>
    rw [hread] at hagrees
    obtain ⟨cursor, hscan, -⟩ := hagrees.of_ok
    rw [hscan]
    rfl
  | error fault =>
    rw [hread] at hagrees hplace
    obtain ⟨offset, hscan, before, hsource, rfl⟩ := hagrees.of_error
    rw [hscan]
    dsimp only
    rw [if_neg hplace.2, Diagnostic.sliced?_eq, hsource, Diagnostic.at?_byteLength]
    exact congrArg (fun d => some (Except.error d)) (Diagnostic.ofFault_append before fault).symm

/-- Scanning is safe and comes to an end. From every offset between characters, the scan of each
part of a script has one outcome for all bounds above the length of the source. It ends between
characters of the source, not before the start, and past it where something has to be scanned; or it
reports a fault at an offset between characters, not before the start. No slice is missing on the
way, nor in the report of a fault; and the scan of the whole source comes to what is read from it.
-/
theorem Script.scan_safe (source : String) :
    (∀ (α : Type) (part : Part α) (start : Nat), isBoundary source.toList start = true →
      ∃ scanned : Scanned α,
        (∀ n, source.toList.length < n → (part.scan n).on source.toList start = scanned) ∧
        scanned.Safe source.toList start part.least) ∧
    Script.scan? source = some (Script.read source) := by
  refine ⟨fun α part start hstart => ?_, Script.scan?_eq source⟩
  obtain ⟨before, text, hsource, hbefore⟩ := Text.exists_of_isBoundary hstart
  exact part.exists_scan ⟨before, hsource, hbefore.symm⟩

/-- A word after a character of two bytes, and a fault before one. -/
theorem Script.scan_safe_accent :
    (Scanned.done "act" 6).Safe "é act é".toList 3 1 ∧
      Script.scan? "é act é" =
        some (.error ⟨.mismatch, "Expected an expression", ⟨1, 0, 0⟩, "é act é"⟩) := by
  have hsafe := Script.scan_safe "é act é"
  constructor
  · obtain ⟨scanned, hscanned, hend⟩ := hsafe.1 _ Part.identifier 3 (by decide)
    have hscan : (Part.identifier.scan 8).on "é act é".toList 3 = .done "act" 6 := rfl
    rw [hscanned 8 (by decide)] at hscan
    rw [hscan] at hend
    exact hend
  · have hscript : Reader.script "é act é".toList =
        .error ⟨.expectedExpression, "é act é".toList⟩ := rfl
    rw [hsafe.2, Script.read, hscript]
    exact congrArg (fun d => some (Except.error d)) (by decide)

end Dialogue
