import Bettergram.Export.Output.EscapedString
import Bettergram.Foundation.JsonText

/-! # Strings, objects and arrays of the JSON export

A string is escaped byte by byte; what an object or an array is built of has been
serialized before, but for the keys.
-/

namespace Bettergram.Export.Output.JsonExport
open Foundation Json

def jsonTable (ch : UInt8) : Option (List Char) :=
  if ch = 0x0A then some "\\n".toList
  else if ch = 0x0D then some "\\r".toList
  else if ch = 0x09 then some "\\t".toList
  else if ch = 0x22 then some "\\\"".toList
  else if ch = 0x5C then some "\\\\".toList
  else if ch < 0x20 then some ("\\x".toList ++ hexDigits ch)
  else none

theorem jsonTable_ascii (ch : UInt8) (h : 128 ≤ ch.toNat) : jsonTable ch = none := by
  rw [jsonTable, if_neg (byte_ne_of_le h _), if_neg (byte_ne_of_le h _), if_neg (byte_ne_of_le h _),
    if_neg (byte_ne_of_le h _), if_neg (byte_ne_of_le h _), if_neg (not_byte_lt_of_le h)]

def jsonEscapes : Escapes where
  table := jsonTable
  line := "\\u2028".toList
  paragraph := "\\u2029".toList
  table_ascii := jsonTable_ascii

def SerializeString (value : List UInt8) : List UInt8 :=
  utf8 ['"'] ++ serializeBytes jsonEscapes value ++ utf8 ['"']

def Indentation (size : ℕ) : List UInt8 := utf8 (List.replicate size ' ')

/-- The loop of objects and arrays: a comma before every item but the first. -/
def appendItems (next : List UInt8) : Bool → List (List UInt8) → List UInt8
  | _, [] => []
  | first, item :: items =>
    (if first then [] else utf8 [',']) ++ next ++ item ++ appendItems next false items

/-- The nesting has one more level for the lines inside. -/
def serializeItems (nesting : List Bool) (opening closing : Char) (items : List (List UInt8)) :
    List UInt8 :=
  let indent := Indentation nesting.length
  let next := utf8 ['\n'] ++ Indentation (nesting.length + 1)
  utf8 [opening] ++ appendItems next true items ++ utf8 ['\n'] ++ indent ++ utf8 [closing]

def SerializeObject (nesting : List Bool) (values : List (List UInt8 × List UInt8)) : List UInt8 :=
  serializeItems nesting '{' '}' ((values.filter fun member => member.2 ≠ []).map fun member =>
    SerializeString member.1 ++ utf8 [':', ' '] ++ member.2)

def SerializeArray (nesting : List Bool) (values : List (List UInt8)) : List UInt8 :=
  serializeItems nesting '[' ']' values

/-! ## What is passed through -/

/-- A string, or a token that another function has serialized. -/
inductive Value (α : Type) where
  | string (text : List Char)
  | other (token : List Char) (a : α)

variable {α : Type}

def Value.bytes : Value α → List UInt8
  | .string text => SerializeString (utf8 text)
  | .other token _ => utf8 token

def Value.read : Value α → List Char ⊕ α
  | .string text => .inl text
  | .other _ a => .inr a

/-- A control character that has no escape of its own. -/
def isControl (c : Char) : Bool := c.toNat < 0x20 && c ≠ '\n' && c ≠ '\r' && c ≠ '\t'

/-- No separators, and no control characters but line breaks and tabs. -/
def Plain (text : List Char) : Prop := ∀ c ∈ text, isSeparator c = false ∧ isControl c = false

def Value.Plain : Value α → Prop
  | .string text => JsonExport.Plain text
  | .other _ _ => True

/-- The bytes are those of a token that the grammar reads as `a`. -/
def Accepted {β : Type} (reader : Reader β) (bytes : List UInt8) (a : β) : Prop :=
  ∃ token, bytes = utf8 token ∧ reader token = some (a, [])

/-- A token that is neither a string nor a closing bracket, and that is read up to its end. -/
structure OtherToken (other : Reader α) (token : List Char) (a : α) : Prop where
  starts : ∃ c rest, token = c :: rest ∧ isBlank c = false ∧ c ≠ '"' ∧ c ≠ ']'
  read : ∀ rest, Delimited rest → other (token ++ rest) = some (a, rest)

/-! ## Strings -/

/-- The token of a text, when it is one. -/
def stringToken (text : List Char) : List Char := '"' :: (escaped jsonEscapes text ++ ['"'])

theorem serializeString_utf8 {text : List Char} (h : ∀ c ∈ text, isSeparator c = false) :
    SerializeString (utf8 text) = utf8 (stringToken text) := by
  rw [SerializeString, serializeBytes_utf8 _ h, stringToken, ← utf8_append, ← utf8_append]
  rfl

theorem isUtf8_serializeString_iff (text : List Char) (rest : List UInt8) :
    IsUtf8 (SerializeString (utf8 text) ++ rest) ↔
      (∀ c ∈ text, isSeparator c = false) ∧ IsUtf8 rest := by
  rw [SerializeString, List.append_assoc, List.append_assoc, isUtf8_append_iff,
    isUtf8_serializeBytes_iff, isUtf8_append_iff]

/-- What a character is written as. -/
theorem escapedChar_json (c : Char) :
    escapedChar jsonEscapes c =
      if c = '\n' then ['\\', 'n'] else if c = '\r' then ['\\', 'r']
      else if c = '\t' then ['\\', 't'] else if c = '"' then ['\\', '"']
      else if c = '\\' then ['\\', '\\']
      else if c.toNat < 0x20 then '\\' :: 'x' :: hexDigits (UInt8.ofNat c.toNat) else [c] := by
  rw [escapedChar]
  by_cases hc : c.toNat < 128
  · have hn : UInt8.ofNat c.toNat = 0x0A ↔ c = '\n' := byte_eq_iff hc '\n'
    have hr : UInt8.ofNat c.toNat = 0x0D ↔ c = '\r' := byte_eq_iff hc '\r'
    have ht : UInt8.ofNat c.toNat = 0x09 ↔ c = '\t' := byte_eq_iff hc '\t'
    have hquote : UInt8.ofNat c.toNat = 0x22 ↔ c = '"' := byte_eq_iff hc '"'
    have hslash : UInt8.ofNat c.toNat = 0x5C ↔ c = '\\' := byte_eq_iff hc '\\'
    simp only [if_pos hc, jsonEscapes, jsonTable, hn, hr, ht, hquote, hslash, byte_lt_iff hc]
    split_ifs <;> rfl
  · rw [if_neg hc, if_neg (ne_of_le (not_lt.mp hc) _), if_neg (ne_of_le (not_lt.mp hc) _),
      if_neg (ne_of_le (not_lt.mp hc) _), if_neg (ne_of_le (not_lt.mp hc) _),
      if_neg (ne_of_le (not_lt.mp hc) _), if_neg (by omega)]

theorem readChars_special {c : Char} (letter : Char) (hc : escapedChar jsonEscapes c = ['\\', letter])
    (hletter : escapedAs letter = some c) (hcontrol : isControl c = false) (rest : List Char) :
    readChars (escapedChar jsonEscapes c ++ rest) =
      if isControl c then none else (readChars rest).map fun (text, rest) => (c :: text, rest) := by
  rw [hc, List.cons_append, List.cons_append, List.nil_append, readChars_escaped hletter, hcontrol]
  rfl

/-- What the grammar makes of a character. -/
theorem readChars_escapedChar (c : Char) (rest : List Char) :
    readChars (escapedChar jsonEscapes c ++ rest) =
      if isControl c then none else (readChars rest).map fun (text, rest) => (c :: text, rest) := by
  by_cases hn : c = '\n'
  · exact hn ▸ readChars_special 'n' (by decide) rfl (by decide) rest
  by_cases hr : c = '\r'
  · exact hr ▸ readChars_special 'r' (by decide) rfl (by decide) rest
  by_cases ht : c = '\t'
  · exact ht ▸ readChars_special 't' (by decide) rfl (by decide) rest
  by_cases hquote : c = '"'
  · exact hquote ▸ readChars_special '"' (by decide) rfl (by decide) rest
  by_cases hslash : c = '\\'
  · exact hslash ▸ readChars_special '\\' (by decide) rfl (by decide) rest
  rw [escapedChar_json, if_neg hn, if_neg hr, if_neg ht, if_neg hquote, if_neg hslash]
  by_cases hlt : c.toNat < 0x20
  · have hcontrol : isControl c = true := by simp [isControl, hlt, hn, hr, ht]
    rw [if_pos hlt, hcontrol]
    exact readChars_other rfl (by decide) _
  · have hcontrol : isControl c = false := by simp [isControl, hlt]
    rw [if_neg hlt, hcontrol]
    exact readChars_plain hquote hslash (not_lt.mp hlt) rest

theorem readChars_escaped_text (text rest : List Char) :
    readChars (escaped jsonEscapes text ++ '"' :: rest) =
      if text.any isControl then none else some (text, rest) := by
  induction text with
  | nil => rfl
  | cons c text ih =>
    rw [escaped, List.flatMap_cons, List.append_assoc, readChars_escapedChar, ← escaped, ih,
      List.any_cons]
    cases isControl c <;> cases text.any isControl <;> rfl

theorem readString_token (text rest : List Char) :
    readString (stringToken text ++ rest) =
      if text.any isControl then none else some (text, rest) := by
  have htoken : stringToken text ++ rest = '"' :: (escaped jsonEscapes text ++ '"' :: rest) := by
    simp [stringToken]
  rw [htoken]
  exact readChars_escaped_text text rest

theorem plain_iff (text : List Char) :
    Plain text ↔ (∀ c ∈ text, isSeparator c = false) ∧ text.any isControl = false := by
  rw [Plain, List.any_eq_false, ← forall₂_and]
  simp

/-- A string is a token for its text exactly when the text is plain. -/
theorem accepted_string_iff (text : List Char) :
    Accepted readString (SerializeString (utf8 text)) text ↔ Plain text := by
  rw [plain_iff]
  constructor
  · rintro ⟨token, htoken, hread⟩
    have hvalid := (isUtf8_serializeString_iff text []).mp
      (by rw [List.append_nil]; exact ⟨token, htoken⟩)
    rw [serializeString_utf8 hvalid.1] at htoken
    obtain rfl := utf8_injective htoken
    have htext := readString_token text []
    rw [List.append_nil, hread] at htext
    refine ⟨hvalid.1, ?_⟩
    by_contra hany
    rw [Bool.not_eq_false] at hany
    rw [if_pos hany] at htext
    exact absurd htext (by simp)
  · rintro ⟨hsep, hcontrol⟩
    refine ⟨stringToken text, serializeString_utf8 hsep, ?_⟩
    have htext := readString_token text []
    rwa [List.append_nil, if_neg (by simp [hcontrol])] at htext

end Bettergram.Export.Output.JsonExport
