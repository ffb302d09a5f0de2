import Dialogue.Json.Value
import Dialogue.Proofs.RoundTrip.Script
import Mathlib.Tactic.SplitIfs

/-!
# JSON strings are strings of scripts

JSON text escapes more characters than a script has to: besides quotes, backslashes and newlines
also the other control characters, some by a letter of their own and the rest by a code of four
hexadecimal digits. Reading undoes each of these escapes (`Reader.readsChars_escape`), so the JSON
text of a string is read as that very string wherever a script may have one
(`Script.read_act_compact`).
-/

namespace Dialogue

/-! ## Codes -/

namespace Text

theorem charOfCode_toNat (c : Char) : charOfCode c.toNat = c := by
  have hvalid : c.toNat.isValidChar := c.valid
  unfold charOfCode
  rw [if_pos hvalid, Char.ofNat_toNat]

end Text

/-! ## Escapes -/

namespace Reader

theorem stringTail_code {a b c d : Char} {code : Nat} (h : Text.hexCode? a b c d = some code)
    (opening rest : List Char) :
    stringTail opening ('\\' :: 'u' :: a :: b :: c :: d :: rest) =
      withChar (Text.charOfCode code) (stringTail opening rest) := by
  rw [stringTail.eq_def]
  simp only [h]
  rfl

/-- Every escape of JSON text is read as the character that it stands for. -/
theorem readsChars_escape : ReadsChars Json.escape := by
  intro opening c rest
  -- an escape by a letter is a fixed text once the character is known
  have hletter (d : Char) (text : List Char) (heq : c = d)
      (hd : stringTail opening (text ++ rest) = withChar d (stringTail opening rest)) :
      stringTail opening (text ++ rest) = withChar c (stringTail opening rest) := heq ▸ hd
  unfold Json.escape
  split_ifs with hquote hback hbackspace hfeed hnewline hreturn htab hcontrol
  · exact hletter _ _ hquote rfl
  · exact hletter _ _ hback rfl
  · exact hletter _ _ hbackspace rfl
  · exact hletter _ _ hfeed rfl
  · exact hletter _ _ hnewline rfl
  · exact hletter _ _ hreturn rfl
  · exact hletter _ _ htab rfl
  · have hcode := Text.hexCode?_hexDigit (show c.toNat < 256 by omega)
    have hread := stringTail_code hcode opening rest
    rw [Text.charOfCode_toNat] at hread
    exact hread
  · exact stringTail_cons hquote hback hnewline opening rest

/-! ## Strings -/

/-- The JSON text of a string, between its quotes. -/
theorem compactText_string (s : String) (rest : List Char) :
    (Json.string s).compactText rest = '"' :: (s.toList.flatMap Json.escape ++ '"' :: rest) := by
  rw [Json.compactText, Json.stringText, List.append_assoc, List.singleton_append,
    List.cons_append]

theorem primary_compactText (expr : Reader Expr) (n : Nat) (s : String) (rest : List Char) :
    primary expr n ((Json.string s).compactText rest) = .ok (.literal (.string s), rest) := by
  rw [compactText_string]
  exact primary_quote (string_flatMap readsChars_escape s rest)

/-- The JSON text of a string is read as an expression, under any bound above its length. -/
theorem expressionAt_compactText (s : String) {n : Nat}
    (hn : ((Json.string s).compactText []).length ≤ n) :
    expressionAt (n + 1) ((Json.string s).compactText []) = .ok (.literal (.string s), []) := by
  have happend (rest : List Char) :
      (Json.string s).compactText [] ++ rest = (Json.string s).compactText rest := by
    simp [compactText_string]
  have hne : (Json.string s).compactText [] ≠ [] := by
    rw [compactText_string]
    exact List.cons_ne_nil _ _
  refine expressionAt_of_primary hne (fun expr n rest _ => ?_) hn
  rw [happend]
  exact primary_compactText expr n s rest

end Reader

/-- The JSON text of any string is a string of a script: reading undoes each escape, so the text is
read as that very string. -/
theorem Script.read_act_compact (s : String) :
    Script.read ("act " ++ (Json.string s).compact) =
      .ok [.perform .act (.literal (.string s))] := by
  have hopens : OpensExpr ((Json.string s).compactText []) := by
    rw [Reader.compactText_string]
    exact ⟨'"', _, rfl, by decide⟩
  have hscript := Reader.script_act hopens fun n hn => Reader.expressionAt_compactText s hn
  have htext : ("act " ++ (Json.string s).compact).toList =
      phrase "act " ++ (Json.string s).compactText [] := by
    simp [Json.compact, phrase]
  rw [Script.read, htext, hscript]
  rfl

end Dialogue
