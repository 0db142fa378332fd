import Bettergram.Export.Output.EscapedString
import Bettergram.Foundation.JsonText

/-! # Strings of the HTML export

A text is escaped byte by byte, with line breaks as tags. Undoing it takes nothing
for granted: a special character that is not part of an entity or a break is refused.
-/

namespace Bettergram.Export.Output.HtmlExport
open Foundation

def htmlTable (ch : UInt8) : Option (List Char) :=
  if ch = 0x0A then some "<br>".toList
  else if ch = 0x22 then some "&quot;".toList
  else if ch = 0x26 then some "&amp;".toList
  else if ch = 0x27 then some "&apos;".toList
  else if ch = 0x3C then some "&lt;".toList
  else if ch = 0x3E then some "&gt;".toList
  else if ch < 0x20 then some ("&#x".toList ++ hexDigits ch ++ [';'])
  else none

theorem htmlTable_ascii (ch : UInt8) (h : 128 ≤ ch.toNat) : htmlTable ch = none := by
  rw [htmlTable, if_neg (byte_ne_of_le h _), if_neg (byte_ne_of_le h _), if_neg (byte_ne_of_le h _),
    if_neg (byte_ne_of_le h _), if_neg (byte_ne_of_le h _), if_neg (byte_ne_of_le h _),
    if_neg (not_byte_lt_of_le h)]

def htmlEscapes : Escapes where
  table := htmlTable
  line := "<br>".toList
  paragraph := "<br>".toList
  table_ascii := htmlTable_ascii

def SerializeString (value : List UInt8) : List UInt8 := serializeBytes htmlEscapes value

/-- Characters that are not written as they are. -/
def isSpecial (c : Char) : Bool := c = '<' || c = '>' || c = '&' || c = '"' || c = '\''

/-- The text of entities and breaks. -/
def undo : List Char → Option (List Char)
  | [] => some []
  | '<' :: 'b' :: 'r' :: '>' :: rest => (undo rest).map ('\n' :: ·)
  | '&' :: 'q' :: 'u' :: 'o' :: 't' :: ';' :: rest => (undo rest).map ('"' :: ·)
  | '&' :: 'a' :: 'm' :: 'p' :: ';' :: rest => (undo rest).map ('&' :: ·)
  | '&' :: 'a' :: 'p' :: 'o' :: 's' :: ';' :: rest => (undo rest).map ('\'' :: ·)
  | '&' :: 'l' :: 't' :: ';' :: rest => (undo rest).map ('<' :: ·)
  | '&' :: 'g' :: 't' :: ';' :: rest => (undo rest).map ('>' :: ·)
  | '&' :: '#' :: 'x' :: high :: low :: ';' :: rest =>
    match Json.hexDigit high, Json.hexDigit low with
    | some h, some l => (undo rest).map (Char.ofNat (16 * h + l) :: ·)
    | _, _ => none
  | c :: rest => if isSpecial c then none else (undo rest).map (c :: ·)

/-- The text with its separators turned into newlines. -/
def withNewlines (text : List Char) : List Char :=
  text.map fun c => if isSeparator c then '\n' else c

/-- What is written is UTF-8, and undoing it gives the text. -/
def Faithful (text : List Char) : Prop :=
  ∃ out, SerializeString (utf8 text) = utf8 out ∧ undo out = some (withNewlines text)

/-! ## A character -/

theorem escapedChar_html (c : Char) :
    escapedChar htmlEscapes c =
      if c = '\n' then "<br>".toList else if c = '"' then "&quot;".toList
      else if c = '&' then "&amp;".toList else if c = '\'' then "&apos;".toList
      else if c = '<' then "&lt;".toList else if c = '>' then "&gt;".toList
      else if c.toNat < 0x20 then "&#x".toList ++ hexDigits (UInt8.ofNat c.toNat) ++ [';']
      else [c] := by
  rw [escapedChar]
  by_cases hc : c.toNat < 128
  · have hn : UInt8.ofNat c.toNat = 0x0A ↔ c = '\n' := byte_eq_iff hc '\n'
    have hquote : UInt8.ofNat c.toNat = 0x22 ↔ c = '"' := byte_eq_iff hc '"'
    have hamp : UInt8.ofNat c.toNat = 0x26 ↔ c = '&' := byte_eq_iff hc '&'
    have hapos : UInt8.ofNat c.toNat = 0x27 ↔ c = '\'' := byte_eq_iff hc '\''
    have hless : UInt8.ofNat c.toNat = 0x3C ↔ c = '<' := byte_eq_iff hc '<'
    have hgreater : UInt8.ofNat c.toNat = 0x3E ↔ c = '>' := byte_eq_iff hc '>'
    simp only [if_pos hc, htmlEscapes, htmlTable, hn, hquote, hamp, hapos, hless, hgreater,
      byte_lt_iff hc]
    split_ifs <;> rfl
  · have hle := not_lt.mp hc
    rw [if_neg hc, if_neg (ne_of_le hle _), if_neg (ne_of_le hle _), if_neg (ne_of_le hle _),
      if_neg (ne_of_le hle _), if_neg (ne_of_le hle _), if_neg (ne_of_le hle _),
      if_neg (by omega)]

/-- The two digits name the character. -/
theorem hexDigits_named {c : Char} (hc : c.toNat < 0x20) :
    ∃ high low h l, hexDigits (UInt8.ofNat c.toNat) = [high, low] ∧ Json.hexDigit high = some h ∧
      Json.hexDigit low = some l ∧ Char.ofNat (16 * h + l) = c := by
  have hall : ∀ n : Fin 0x20, (hexDigits (UInt8.ofNat n.val)).map Json.hexDigit =
      [some (n.val / 16), some (n.val % 16)] := by decide
  have hdigits := hall ⟨c.toNat, hc⟩
  rw [hexDigits, List.map_cons, List.map_cons, List.map_nil, List.cons.injEq, List.cons.injEq]
    at hdigits
  refine ⟨_, _, c.toNat / 16, c.toNat % 16, rfl, hdigits.1, hdigits.2.1, ?_⟩
  rw [Nat.div_add_mod, Char.ofNat_toNat]

theorem undo_hex {high low : Char} {h l : ℕ} (hhigh : Json.hexDigit high = some h)
    (hlow : Json.hexDigit low = some l) (rest : List Char) :
    undo ('&' :: '#' :: 'x' :: high :: low :: ';' :: rest) =
      (undo rest).map (Char.ofNat (16 * h + l) :: ·) := by
  rw [undo, hhigh, hlow]

theorem undo_plain {c : Char} (hc : isSpecial c = false) (rest : List Char) :
    undo (c :: rest) = (undo rest).map (c :: ·) := by
  have hne : c ≠ '<' ∧ c ≠ '&' := by
    constructor
    all_goals
      rintro rfl
      simp [isSpecial] at hc
  simp [undo, hne, hc]

theorem undo_escapedChar (c : Char) (rest : List Char) :
    undo (escapedChar htmlEscapes c ++ rest) = (undo rest).map (c :: ·) := by
  rw [escapedChar_html]
  by_cases hn : c = '\n'
  · subst hn
    rfl
  by_cases hquote : c = '"'
  · subst hquote
    rfl
  by_cases hamp : c = '&'
  · subst hamp
    rfl
  by_cases hapos : c = '\''
  · subst hapos
    rfl
  by_cases hless : c = '<'
  · subst hless
    rfl
  by_cases hgreater : c = '>'
  · subst hgreater
    rfl
  rw [if_neg hn, if_neg hquote, if_neg hamp, if_neg hapos, if_neg hless, if_neg hgreater]
  by_cases hlt : c.toNat < 0x20
  · obtain ⟨high, low, h, l, hdigits, hhigh, hlow, hchar⟩ := hexDigits_named hlt
    rw [if_pos hlt, hdigits]
    exact (undo_hex hhigh hlow rest).trans (by rw [hchar])
  · rw [if_neg hlt]
    exact undo_plain (by simp [isSpecial, hquote, hamp, hapos, hless, hgreater]) rest

/-! ## A text -/

theorem undo_escaped (text : List Char) : undo (escaped htmlEscapes text) = some text := by
  induction text with
  | nil => rfl
  | cons c text ih =>
    rw [escaped, List.flatMap_cons, undo_escapedChar, ← escaped, ih]
    rfl

/-- The export is faithful exactly to texts without separators. -/
theorem html_string_faithful_iff (text : List Char) :
    Faithful text ↔ ∀ c ∈ text, isSeparator c = false := by
  constructor
  · rintro ⟨out, hout, -⟩
    have hvalid := isUtf8_serializeBytes_iff htmlEscapes text []
    rw [List.append_nil] at hvalid
    exact (hvalid.mp ⟨out, hout⟩).1
  · intro hsep
    refine ⟨escaped htmlEscapes text, serializeBytes_utf8 htmlEscapes hsep, ?_⟩
    have hsame : withNewlines text = text := by
      rw [withNewlines, List.map_congr_left (g := id), List.map_id]
      intro c hc
      simp [hsep c hc]
    rw [undo_escaped, hsame]

/-- The text of one line separator. -/
theorem html_string_not_faithful : ¬Faithful ['\u2028'] := by
  rintro ⟨out, hout, -⟩
  have hvalid := isUtf8_serializeBytes_iff htmlEscapes ['\u2028'] []
  rw [List.append_nil] at hvalid
  exact absurd (hvalid.mp ⟨out, hout⟩).1 (by simp [isSeparator, lineSeparator])

end Bettergram.Export.Output.HtmlExport
